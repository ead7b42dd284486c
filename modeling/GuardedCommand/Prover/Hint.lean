import GuardedCommand.Names.Basic
import GuardedCommand.Prover.Shape

/-! # Instantiation hints

A universal quantifier over `k` is instantiated where a term `a[k]` occurs. The hint is the first
such element of the quantified formula, from left to right and outside in, whose index is exactly
`k`; inside a binder of the same name there is none.
-/

namespace GuardedCommand

mutual

/-- The first element with index `k` in a variable. -/
def Variable.hint? (k : String) : Variable → Option Variable
  | .name _ => none
  | .select b i =>
    if i.isName k then some (.select b i)
    else b.hint? k <|> i.hint? k
  | .store b i e => b.hint? k <|> i.hint? k <|> e.hint? k

/-- The first element with index `k` in an expression. -/
def Expr.hint? (k : String) : Expr → Option Variable
  | .map v => v.hint? k
  | .int e => e.hint? k

/-- The first element with index `k` in an integer expression. -/
def IntExpr.hint? (k : String) : IntExpr → Option Variable
  | .const _ => none
  | .var v => v.hint? k
  | .negate e => e.hint? k
  | .binary _ l r => l.hint? k <|> r.hint? k
  | .call _ args => Expr.hintAll? k args
  | .fold _ j c e => if j = k then none else c.hint? k <|> e.hint? k
  | .count j c p => if j = k then none else c.hint? k <|> p.hint? k

/-- The first element with index `k` in a predicate. -/
def Predicate.hint? (k : String) : Predicate → Option Variable
  | .const _ => none
  | .not p => p.hint? k
  | .binary _ l r => l.hint? k <|> r.hint? k
  | .comp _ l r => l.hint? k <|> r.hint? k
  | .call _ args => Expr.hintAll? k args
  | .perm a b n => a.hint? k <|> b.hint? k <|> n.hint? k
  | .quant _ j c p => if j = k then none else c.hint? k <|> p.hint? k

/-- The first element with index `k` in a list of arguments. -/
def Expr.hintAll? (k : String) : List Expr → Option Variable
  | [] => none
  | e :: es => e.hint? k <|> Expr.hintAll? k es

end

/-- Whether a formula `a[k] = m` under a quantifier over `k` says that `m` is an element of `a`:
either side may be the element, and `k` does not occur in the other. -/
def Predicate.isMembership (k : String) : Predicate → Bool
  | .comp .eq l r =>
    if (l.indexedBy? k).isSome then !r.freeNames.contains k
    else if (r.indexedBy? k).isSome then !l.freeNames.contains k
    else false
  | _ => false

/-! ## Sizes

A hint is a part of the formula, and so no larger. -/

mutual

/-- The hint of a variable is not larger than the variable. -/
theorem Variable.size_hint? {k : String} {u : Variable} (v : Variable) (h : v.hint? k = some u) :
    u.size ≤ v.size := by
  cases v with
  | name x => simp [Variable.hint?] at h
  | select b i =>
    simp only [Variable.hint?] at h
    split at h
    · simp only [Option.some.injEq] at h
      exact h ▸ Nat.le_refl _
    · simp only [Option.orElse_eq_orElse, Option.orElse_eq_or, Option.or_eq_some_iff] at h
      simp only [Variable.size]
      rcases h with h | ⟨-, h⟩
      · have := Variable.size_hint? b h; omega
      · have := IntExpr.size_hint? i h; omega
  | store b i e =>
    simp only [Variable.hint?, Option.orElse_eq_orElse, Option.orElse_eq_or,
      Option.or_eq_some_iff] at h
    simp only [Variable.size]
    rcases h with h | ⟨-, h | ⟨-, h⟩⟩
    · have := Variable.size_hint? b h; omega
    · have := IntExpr.size_hint? i h; omega
    · have := Expr.size_hint? e h; omega

/-- The hint of an expression is not larger than the expression. -/
theorem Expr.size_hint? {k : String} {u : Variable} (e : Expr) (h : e.hint? k = some u) :
    u.size ≤ e.size := by
  cases e with
  | map v => have := Variable.size_hint? v h; simp only [Expr.size]; omega
  | int e => have := IntExpr.size_hint? e h; simp only [Expr.size]; omega

/-- The hint of an integer expression is not larger than the expression. -/
theorem IntExpr.size_hint? {k : String} {u : Variable} (e : IntExpr) (h : e.hint? k = some u) :
    u.size ≤ e.size := by
  cases e with
  | const c => simp [IntExpr.hint?] at h
  | var v => have := Variable.size_hint? v h; simp only [IntExpr.size]; omega
  | negate e => have := IntExpr.size_hint? e h; simp only [IntExpr.size]; omega
  | binary op l r =>
    simp only [IntExpr.hint?, Option.orElse_eq_orElse, Option.orElse_eq_or,
      Option.or_eq_some_iff] at h
    simp only [IntExpr.size]
    rcases h with h | ⟨-, h⟩
    · have := IntExpr.size_hint? l h; omega
    · have := IntExpr.size_hint? r h; omega
  | call f args => have := Expr.size_hintAll? args h; simp only [IntExpr.size]; omega
  | fold op j c e =>
    simp only [IntExpr.hint?, Option.orElse_eq_orElse, Option.orElse_eq_or] at h
    split at h
    · cases h
    · rw [Option.or_eq_some_iff] at h
      simp only [IntExpr.size]
      rcases h with h | ⟨-, h⟩
      · have := Predicate.size_hint? c h; omega
      · have := IntExpr.size_hint? e h; omega
  | count j c p =>
    simp only [IntExpr.hint?, Option.orElse_eq_orElse, Option.orElse_eq_or] at h
    split at h
    · cases h
    · rw [Option.or_eq_some_iff] at h
      simp only [IntExpr.size]
      rcases h with h | ⟨-, h⟩
      · have := Predicate.size_hint? c h; omega
      · have := Predicate.size_hint? p h; omega

/-- The hint of a predicate is not larger than the predicate. -/
theorem Predicate.size_hint? {k : String} {u : Variable} (p : Predicate) (h : p.hint? k = some u) :
    u.size ≤ p.size := by
  cases p with
  | const b => simp [Predicate.hint?] at h
  | not p => have := Predicate.size_hint? p h; simp only [Predicate.size]; omega
  | binary op l r =>
    simp only [Predicate.hint?, Option.orElse_eq_orElse, Option.orElse_eq_or,
      Option.or_eq_some_iff] at h
    simp only [Predicate.size]
    rcases h with h | ⟨-, h⟩
    · have := Predicate.size_hint? l h; omega
    · have := Predicate.size_hint? r h; omega
  | comp op l r =>
    simp only [Predicate.hint?, Option.orElse_eq_orElse, Option.orElse_eq_or,
      Option.or_eq_some_iff] at h
    simp only [Predicate.size]
    rcases h with h | ⟨-, h⟩
    · have := IntExpr.size_hint? l h; omega
    · have := IntExpr.size_hint? r h; omega
  | call f args => have := Expr.size_hintAll? args h; simp only [Predicate.size]; omega
  | perm a b n =>
    simp only [Predicate.hint?, Option.orElse_eq_orElse, Option.orElse_eq_or,
      Option.or_eq_some_iff] at h
    simp only [Predicate.size]
    rcases h with h | ⟨-, h | ⟨-, h⟩⟩
    · have := Variable.size_hint? a h; omega
    · have := Variable.size_hint? b h; omega
    · have := IntExpr.size_hint? n h; omega
  | quant q j c p =>
    simp only [Predicate.hint?, Option.orElse_eq_orElse, Option.orElse_eq_or] at h
    split at h
    · cases h
    · rw [Option.or_eq_some_iff] at h
      simp only [Predicate.size]
      rcases h with h | ⟨-, h⟩
      · have := Predicate.size_hint? c h; omega
      · have := Predicate.size_hint? p h; omega

/-- The hint of arguments is not larger than all of them together. -/
theorem Expr.size_hintAll? {k : String} {u : Variable} (es : List Expr)
    (h : Expr.hintAll? k es = some u) : u.size ≤ Expr.sizeAll es := by
  cases es with
  | nil => simp [Expr.hintAll?] at h
  | cons e es =>
    simp only [Expr.hintAll?, Option.orElse_eq_orElse, Option.orElse_eq_or,
      Option.or_eq_some_iff] at h
    simp only [Expr.sizeAll]
    rcases h with h | ⟨-, h⟩
    · have := Expr.size_hint? e h; omega
    · have := Expr.size_hintAll? es h; omega

end

end GuardedCommand
