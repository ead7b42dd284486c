import GuardedCommand.Proofs.Meaning
import GuardedCommand.Substitution.Basic

/-! # Nodes of formulas

A predicate, an integer expression, a variable and an expression are all nodes of formulas. What
holds of each kind can be stated for a node of any kind.

* `Node`, `Node.freeNames`: a node and the names that occur free in it.
* `Meaning`, `Node.meaning`: what a node stands for in a state, a truth or a value.
* `Node.subst`: substitution in a node.
-/

namespace GuardedCommand

/-- A node of a formula. -/
inductive Node where
  /-- A predicate. -/
  | predicate (p : Predicate)
  /-- An integer expression. -/
  | int (e : IntExpr)
  /-- A variable. -/
  | var (v : Variable)
  /-- An expression of either kind. -/
  | expr (e : Expr)

/-- What a node stands for in a state. -/
inductive Meaning where
  /-- The truth of a predicate. -/
  | truth (holds : Prop)
  /-- The value of all else. -/
  | value (v : Value)

namespace Node

/-- Names that occur free in a node. -/
def freeNames : Node → List String
  | .predicate p => p.freeNames
  | .int e => e.freeNames
  | .var v => v.freeNames
  | .expr e => e.freeNames

/-- What a node stands for in a state. -/
def meaning (I : Interpretation) : Node → State → Meaning
  | .predicate p, s => .truth (p.Holds I s)
  | .int e, s => .value (e.value I s)
  | .var v, s => .value (v.value I s)
  | .expr e, s => .value (e.value I s)

/-- A node with expressions substituted for its free names. A variable becomes an expression, since
its name may be replaced by an integer. -/
def subst (σ : Substitution) : Node → Except SubstError Node
  | .predicate p => .predicate <$> p.subst σ
  | .int e => .int <$> e.subst σ
  | .var v => .expr <$> v.subst σ
  | .expr e => .expr <$> e.subst σ

end Node

/-! ## Free names, constructor by constructor -/

/-- A name mentions itself. -/
@[simp] theorem IntExpr.freeNames_name (x : String) : (IntExpr.name x).freeNames = [x] := by
  rw [IntExpr.freeNames, IntExpr.name, IntExpr.names, Variable.names]

/-- A constant mentions no names. -/
@[simp] theorem IntExpr.freeNames_const (c : Int) : (IntExpr.const c).freeNames = [] := by
  rw [IntExpr.freeNames, IntExpr.names]

/-- An operator mentions the names of both operands. -/
@[simp] theorem IntExpr.freeNames_binary (op : ArithOp) (l r : IntExpr) :
    (IntExpr.binary op l r).freeNames = l.freeNames ++ r.freeNames := by
  rw [IntExpr.freeNames, IntExpr.names, IntExpr.freeNames, IntExpr.freeNames]

/-- An element, as an integer, mentions the names of its array and its index. -/
@[simp] theorem IntExpr.freeNames_select (b : Variable) (i : IntExpr) :
    (IntExpr.var (.select b i)).freeNames = b.freeNames ++ i.freeNames := by
  rw [IntExpr.freeNames, IntExpr.names, Variable.names, Variable.freeNames, IntExpr.freeNames]

/-- An element mentions the names of its array and its index. -/
@[simp] theorem Variable.freeNames_select (b : Variable) (i : IntExpr) :
    (Variable.select b i).freeNames = b.freeNames ++ i.freeNames := by
  rw [Variable.freeNames, Variable.names, Variable.freeNames, IntExpr.freeNames]

/-- A map with a stored element mentions the names of the map, the index and the element. -/
@[simp] theorem Variable.freeNames_store (b : Variable) (i : IntExpr) (e : Expr) :
    (Variable.store b i e).freeNames = b.freeNames ++ i.freeNames ++ e.freeNames := by
  rw [Variable.freeNames, Variable.names, Variable.freeNames, IntExpr.freeNames, Expr.freeNames]

/-- A variable as an expression mentions the names of the variable. -/
@[simp] theorem Expr.freeNames_map (v : Variable) : (Expr.map v).freeNames = v.freeNames := rfl

/-- A comparison mentions the names of both sides. -/
@[simp] theorem Predicate.freeNames_comp (op : CompOp) (l r : IntExpr) :
    (Predicate.comp op l r).freeNames = l.freeNames ++ r.freeNames := by
  rw [Predicate.freeNames, Predicate.names, IntExpr.freeNames, IntExpr.freeNames]

/-- A connective mentions the names of both predicates. -/
@[simp] theorem Predicate.freeNames_binary (op : BoolOp) (l r : Predicate) :
    (Predicate.binary op l r).freeNames = l.freeNames ++ r.freeNames := by
  rw [Predicate.freeNames, Predicate.names, Predicate.freeNames, Predicate.freeNames]

/-- A permutation mentions the names of both arrays and the bound. -/
@[simp] theorem Predicate.freeNames_perm (a b : Variable) (n : IntExpr) :
    (Predicate.perm a b n).freeNames = a.freeNames ++ b.freeNames ++ n.freeNames := by
  rw [Predicate.freeNames, Predicate.names, Variable.freeNames, Variable.freeNames,
    IntExpr.freeNames]

/-- Below a binder all names but the bound variable are free. -/
theorem Mention.mem_binder_free {k x : String} {xs : List String} :
    x ∈ Mention.free.binder k xs ↔ x ∈ xs ∧ x ≠ k := by
  simp [Mention.binder, Mention.free]

/-- The free names of an aggregate are those of its two parts, apart from the bound variable. -/
theorem IntExpr.mem_freeNames_fold {op : Aggregate} {k x : String} {c : Predicate} {e : IntExpr} :
    x ∈ (IntExpr.fold op k c e).freeNames ↔ (x ∈ c.freeNames ∨ x ∈ e.freeNames) ∧ x ≠ k := by
  rw [IntExpr.freeNames, IntExpr.names, Mention.mem_binder_free, List.mem_append,
    Predicate.freeNames, IntExpr.freeNames]

/-- The free names of a quantifier are those of its two parts, apart from the bound variable. -/
theorem Predicate.mem_freeNames_quant {q : Quantifier} {k x : String} {c p : Predicate} :
    x ∈ (Predicate.quant q k c p).freeNames ↔ (x ∈ c.freeNames ∨ x ∈ p.freeNames) ∧ x ≠ k := by
  rw [Predicate.freeNames, Predicate.names, Mention.mem_binder_free, List.mem_append,
    Predicate.freeNames, Predicate.freeNames]

end GuardedCommand
