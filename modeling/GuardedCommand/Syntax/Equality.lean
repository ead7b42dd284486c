import GuardedCommand.Syntax.Formula

/-! # Decidable equality of formulas

Equality of the four categories of formulas is decided together, by comparing constructors and
then parts. Two targets of an assignment are the same only when they are the same tree.
-/

namespace GuardedCommand

mutual

/-- Whether two variables are the same tree. -/
def Variable.same : Variable → Variable → Bool
  | .name x, .name y => x == y
  | .select b i, .select c j => b.same c && i.same j
  | .store b i e, .store c j f => b.same c && i.same j && e.same f
  | _, _ => false

/-- Whether two expressions are the same tree. -/
def Expr.same : Expr → Expr → Bool
  | .map v, .map w => v.same w
  | .int d, .int e => d.same e
  | _, _ => false

/-- Whether two integer expressions are the same tree. -/
def IntExpr.same : IntExpr → IntExpr → Bool
  | .const c, .const d => c == d
  | .var v, .var w => v.same w
  | .negate d, .negate e => d.same e
  | .binary o l r, .binary o' l' r' => o == o' && l.same l' && r.same r'
  | .call f as, .call g bs => f == g && Expr.sameAll as bs
  | .fold o k c e, .fold o' k' c' e' => o == o' && k == k' && c.same c' && e.same e'
  | .count k c p, .count k' c' p' => k == k' && c.same c' && p.same p'
  | _, _ => false

/-- Whether two predicates are the same tree. -/
def Predicate.same : Predicate → Predicate → Bool
  | .const b, .const c => b == c
  | .not p, .not q => p.same q
  | .binary o l r, .binary o' l' r' => o == o' && l.same l' && r.same r'
  | .comp o l r, .comp o' l' r' => o == o' && l.same l' && r.same r'
  | .call f as, .call g bs => f == g && Expr.sameAll as bs
  | .perm a b n, .perm a' b' n' => a.same a' && b.same b' && n.same n'
  | .quant q k c p, .quant q' k' c' p' => q == q' && k == k' && c.same c' && p.same p'
  | _, _ => false

/-- Whether two argument lists are the same. -/
def Expr.sameAll : List Expr → List Expr → Bool
  | [], [] => true
  | d :: ds, e :: es => d.same e && Expr.sameAll ds es
  | _, _ => false

end

mutual

/-- The comparison of variables decides their equality. -/
theorem Variable.same_iff : ∀ v w : Variable, v.same w = true ↔ v = w
  | .name _, w => by cases w <;> simp [Variable.same]
  | .select b i, w => by cases w <;> simp [Variable.same, b.same_iff, i.same_iff]
  | .store b i e, w => by
    cases w <;> simp [Variable.same, b.same_iff, i.same_iff, e.same_iff, and_assoc]

/-- The comparison of expressions decides their equality. -/
theorem Expr.same_iff : ∀ d e : Expr, d.same e = true ↔ d = e
  | .map v, e => by cases e <;> simp [Expr.same, v.same_iff]
  | .int d, e => by cases e <;> simp [Expr.same, d.same_iff]

/-- The comparison of integer expressions decides their equality. -/
theorem IntExpr.same_iff : ∀ d e : IntExpr, d.same e = true ↔ d = e
  | .const _, e => by cases e <;> simp [IntExpr.same]
  | .var v, e => by cases e <;> simp [IntExpr.same, v.same_iff]
  | .negate d, e => by cases e <;> simp [IntExpr.same, d.same_iff]
  | .binary _ l r, e => by cases e <;> simp [IntExpr.same, l.same_iff, r.same_iff, and_assoc]
  | .call _ as, e => by cases e <;> simp [IntExpr.same, Expr.sameAll_iff as]
  | .fold _ _ c d, e => by cases e <;> simp [IntExpr.same, c.same_iff, d.same_iff, and_assoc]
  | .count _ c p, e => by cases e <;> simp [IntExpr.same, c.same_iff, p.same_iff, and_assoc]

/-- The comparison of predicates decides their equality. -/
theorem Predicate.same_iff : ∀ p q : Predicate, p.same q = true ↔ p = q
  | .const _, q => by cases q <;> simp [Predicate.same]
  | .not p, q => by cases q <;> simp [Predicate.same, p.same_iff]
  | .binary _ l r, q => by cases q <;> simp [Predicate.same, l.same_iff, r.same_iff, and_assoc]
  | .comp _ l r, q => by cases q <;> simp [Predicate.same, l.same_iff, r.same_iff, and_assoc]
  | .call _ as, q => by cases q <;> simp [Predicate.same, Expr.sameAll_iff as]
  | .perm a b n, q => by
    cases q <;> simp [Predicate.same, a.same_iff, b.same_iff, n.same_iff, and_assoc]
  | .quant _ _ c p, q => by cases q <;> simp [Predicate.same, c.same_iff, p.same_iff, and_assoc]

/-- The comparison of lists of arguments decides their equality. -/
theorem Expr.sameAll_iff : ∀ ds es : List Expr, Expr.sameAll ds es = true ↔ ds = es
  | [], es => by cases es <;> simp [Expr.sameAll]
  | d :: ds, es => by cases es <;> simp [Expr.sameAll, d.same_iff, Expr.sameAll_iff ds]

end

instance : DecidableEq Variable := fun v w => decidable_of_iff _ (v.same_iff w)
instance : DecidableEq Expr := fun d e => decidable_of_iff _ (d.same_iff e)
instance : DecidableEq IntExpr := fun d e => decidable_of_iff _ (d.same_iff e)
instance : DecidableEq Predicate := fun p q => decidable_of_iff _ (p.same_iff q)

end GuardedCommand
