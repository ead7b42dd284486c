import GuardedCommand.Prover.Term
import GuardedCommand.Syntax.Formula

/-! # Triggers

A trigger claims nodes of a formula for a function that the background definitions of its axiom
describe. What it claims becomes an application of that function to parts of the node, or a fixed
term. The parts of a claim are smaller than the node, so lowering them ends.
-/

namespace GuardedCommand

/-- The size of the largest of some expressions. -/
def Expr.sizeMax : List Expr → Nat
  | [] => 0
  | e :: es => max e.size (Expr.sizeMax es)

/-- The largest of some expressions is not larger than all of them together. -/
theorem Expr.sizeMax_le_sizeAll (es : List Expr) : Expr.sizeMax es ≤ Expr.sizeAll es := by
  induction es with
  | nil => simp [Expr.sizeMax]
  | cons e es ih => simp only [Expr.sizeMax, Expr.sizeAll]; omega

/-- What a trigger makes of a node. -/
inductive Claim where
  /-- A term that does not depend on the node. -/
  | fixed (t : Term)
  /-- The application of a function to parts of the node. -/
  | apply (head : String) (parts : List Expr)

/-- The parts of the node that a claim uses. -/
def Claim.parts : Claim → List Expr
  | .fixed _ => []
  | .apply _ parts => parts

/-- Recognises the formulas that an axiom is about. -/
structure Trigger where
  /-- The name of the axiom. -/
  name : String
  /-- The claim on a predicate. -/
  onPredicate : Predicate → Option Claim := fun _ => none
  /-- The claim on an integer expression. -/
  onInt : IntExpr → Option Claim := fun _ => none
  /-- The claim on a variable. -/
  onVariable : Variable → Option Claim := fun _ => none
  /-- The parts of a claim are smaller than the predicate. -/
  onPredicate_size : ∀ {p c}, onPredicate p = some c → Expr.sizeMax c.parts < p.size := by simp
  /-- The parts of a claim are smaller than the integer expression. -/
  onInt_size : ∀ {e c}, onInt e = some c → Expr.sizeMax c.parts < e.size := by simp
  /-- The parts of a claim are smaller than the variable. -/
  onVariable_size : ∀ {v c}, onVariable v = some c → Expr.sizeMax c.parts < v.size := by simp

namespace Trigger

/-- The claims of some triggers on one node, in the order of the triggers. -/
def claims (ask : Trigger → Option Claim) (ts : List Trigger) : List (String × Claim) :=
  ts.filterMap fun t => (ask t).map (t.name, ·)

/-- Every claim is that of some trigger. -/
theorem exists_of_mem_claims {ask : Trigger → Option Claim} {ts : List Trigger} {n : String}
    {c : Claim} (h : (n, c) ∈ claims ask ts) : ∃ t ∈ ts, ask t = some c := by
  simp only [claims, List.mem_filterMap, Option.map_eq_some_iff, Prod.mk.injEq] at h
  obtain ⟨t, ht, d, hd, -, rfl⟩ := h
  exact ⟨t, ht, hd⟩

end Trigger

end GuardedCommand
