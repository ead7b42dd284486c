/-! # Formulas

Syntax of the predicates and integer expressions in which programs and their specifications are
written. The four categories refer to one another:

* `Variable`: a name, an element `a[i]`, or a map `(a; i:x)` that differs from `a` at one index.
* `Expr`: what may stand on the right of an assignment or as an argument, a map or an integer.
* `IntExpr`: integer expressions, with sums, products and counts over a bound variable.
* `Predicate`: truth-valued formulas, with quantifiers over a bound variable.

`Expr.map (.name x)` and `Expr.int (.var (.name x))` are different trees for the same value: the
first uses `x` as a map, the second as an integer.
-/

namespace GuardedCommand

/-- Binary integer operations. -/
inductive ArithOp where
  | plus
  | minus
  | mult
  deriving DecidableEq, Repr

/-- Binary propositional connectives. -/
inductive BoolOp where
  | and
  | or
  | implies
  | iff
  deriving DecidableEq, Repr

/-- Comparisons of integers. -/
inductive CompOp where
  | lt
  | gt
  | le
  | ge
  | eq
  | ne
  deriving DecidableEq, Repr

/-- Aggregates of an integer expression over a bound variable. -/
inductive Aggregate where
  | sum
  | prod
  deriving DecidableEq, Repr

/-- Quantifiers over a bound variable. -/
inductive Quantifier where
  | all
  | some
  deriving DecidableEq, Repr

mutual

/-- A reference to a map or to an integer. -/
inductive Variable where
  /-- The name `x`. -/
  | name (x : String)
  /-- The element `base[selector]`. -/
  | select (base : Variable) (selector : IntExpr)
  /-- The map `base` with `value` at index `selector`. -/
  | store (base : Variable) (selector : IntExpr) (value : Expr)

/-- A value of either kind: an argument, a stored value or the right side of an assignment. -/
inductive Expr where
  /-- A variable used as a map. -/
  | map (v : Variable)
  /-- An integer expression. -/
  | int (e : IntExpr)

/-- An integer expression. -/
inductive IntExpr where
  /-- An integer literal. -/
  | const (c : Int)
  /-- A variable used as an integer. -/
  | var (v : Variable)
  /-- The negation `-e`. -/
  | negate (e : IntExpr)
  /-- A sum, difference or product of two expressions. -/
  | binary (op : ArithOp) (left right : IntExpr)
  /-- The application of a named function. -/
  | call (f : String) (args : List Expr)
  /-- The aggregate of `inner` over the integers `k` that satisfy `condition`. -/
  | fold (op : Aggregate) (k : String) (condition : Predicate) (inner : IntExpr)
  /-- The number of integers `k` that satisfy both `condition` and `inner`. -/
  | count (k : String) (condition inner : Predicate)

/-- A formula that is true or false in a state. -/
inductive Predicate where
  /-- A truth value. -/
  | const (b : Bool)
  /-- The negation of a predicate. -/
  | not (p : Predicate)
  /-- Two predicates joined by a connective. -/
  | binary (op : BoolOp) (left right : Predicate)
  /-- A comparison of two integers. -/
  | comp (op : CompOp) (left right : IntExpr)
  /-- The application of a named relation. -/
  | call (f : String) (args : List Expr)
  /-- The first `n` elements of `b` are those of `a` in some order. -/
  | perm (a b : Variable) (n : IntExpr)
  /-- `inner` for all, or for some, integers `k` that satisfy `condition`. -/
  | quant (q : Quantifier) (k : String) (condition inner : Predicate)

end

instance : Inhabited Variable := ⟨.name ""⟩
instance : Inhabited IntExpr := ⟨.const 0⟩
instance : Inhabited Expr := ⟨.int default⟩
instance : Inhabited Predicate := ⟨.const true⟩

namespace Variable

/-- The name, if the variable is one. -/
def asName : Variable → Option String
  | .name x => some x
  | _ => none

end Variable

namespace IntExpr

/-- The name `x` as an integer expression. -/
def name (x : String) : IntExpr := .var (.name x)

/-- The name, if the expression is exactly one. -/
def asName : IntExpr → Option String
  | .var v => v.asName
  | _ => none

/-- Whether the expression is exactly the name `x`. -/
def isName (e : IntExpr) (x : String) : Bool :=
  e.asName == some x

/-- The sum of two expressions. -/
def plus (left right : IntExpr) : IntExpr := .binary .plus left right

/-- The difference of two expressions. -/
def minus (left right : IntExpr) : IntExpr := .binary .minus left right

end IntExpr

namespace Expr

/-- The name `x` as an argument, used as an integer. -/
def name (x : String) : Expr := .int (.name x)

/-- The variable an expression consists of, whichever way it is used. -/
def asVariable : Expr → Option Variable
  | .map v => some v
  | .int (.var v) => some v
  | .int _ => none

end Expr

namespace Predicate

/-- The conjunction of two predicates. -/
def and (p q : Predicate) : Predicate := .binary .and p q

/-- The disjunction of two predicates. -/
def or (p q : Predicate) : Predicate := .binary .or p q

/-- The implication from `p` to `q`. -/
def implies (p q : Predicate) : Predicate := .binary .implies p q

/-- Joins predicates from the left, `((p₁ ∘ p₂) ∘ p₃) ∘ …`; there is no empty join. -/
def join (op : BoolOp) : List Predicate → Option Predicate
  | [] => none
  | p :: ps => some (ps.foldl (.binary op) p)

/-- The disjunction of a list of guards; without guards none holds. -/
def anyOf (guards : List Predicate) : Predicate :=
  (join .or guards).getD (.const false)

end Predicate

/-! ## Size

The number of constructors of a tree: the measure by which lowering to prover terms descends. -/

mutual

/-- Number of nodes of a variable. -/
def Variable.size : Variable → Nat
  | .name _ => 1
  | .select b i => b.size + i.size + 1
  | .store b i e => b.size + i.size + e.size + 1

/-- Number of nodes of an expression of either kind. -/
def Expr.size : Expr → Nat
  | .map v => v.size + 1
  | .int e => e.size + 1

/-- Number of nodes of an integer expression. -/
def IntExpr.size : IntExpr → Nat
  | .const _ => 1
  | .var v => v.size + 1
  | .negate e => e.size + 1
  | .binary _ l r => l.size + r.size + 1
  | .call _ args => Expr.sizeAll args + 1
  | .fold _ _ c e => c.size + e.size + 1
  | .count _ c p => c.size + p.size + 1

/-- Number of nodes of a predicate. -/
def Predicate.size : Predicate → Nat
  | .const _ => 1
  | .not p => p.size + 1
  | .binary _ l r => l.size + r.size + 1
  | .comp _ l r => l.size + r.size + 1
  | .call _ args => Expr.sizeAll args + 1
  | .perm a b n => a.size + b.size + n.size + 1
  | .quant _ _ c p => c.size + p.size + 1

/-- Number of nodes of a list of arguments. -/
def Expr.sizeAll : List Expr → Nat
  | [] => 0
  | e :: es => e.size + Expr.sizeAll es

end

/-- A variable has at least one node. -/
theorem Variable.size_pos (v : Variable) : 0 < v.size := by
  cases v <;> simp [Variable.size]

/-- An integer expression has at least one node. -/
theorem IntExpr.size_pos (e : IntExpr) : 0 < e.size := by
  cases e <;> simp [IntExpr.size]

/-- A predicate has at least one node. -/
theorem Predicate.size_pos (p : Predicate) : 0 < p.size := by
  cases p <;> simp [Predicate.size]

/-- An expression has at least one node. -/
theorem Expr.size_pos (e : Expr) : 0 < e.size := by
  cases e <;> simp [Expr.size]

/-- An argument is no larger than its list. -/
theorem Expr.size_le_sizeAll {e : Expr} {es : List Expr} (h : e ∈ es) : e.size ≤ Expr.sizeAll es := by
  induction es with
  | nil => cases h
  | cons d ds ih =>
    rcases List.mem_cons.mp h with rfl | h
    · simp [Expr.sizeAll]
    · have := ih h
      simp [Expr.sizeAll]; omega

end GuardedCommand
