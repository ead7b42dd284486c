import GuardedCommand.Assignment.Normal
import GuardedCommand.Obligation.Command
import GuardedCommand.Substitution.Basic

/-! # Weakest preconditions of elementary commands

A command without choices and loops has a weakest precondition that is again a predicate. An
assignment substitutes its values for its targets, after it was brought into normal form.

* `Assign.wp`: the weakest precondition of an assignment.
* `Command.wp`, `Command.wpSeq`: that of an elementary command and of a sequence of them.
-/

namespace GuardedCommand

/-- Why no proof obligations can be generated. -/
inductive WpError where
  /-- The program or its specification is at fault. -/
  | spec (e : SpecError)
  /-- An assigned value is not of the kind its target is used as. -/
  | subst (e : SubstError)
  /-- A choice or a loop stands where only elementary commands can. -/
  | compound
  deriving DecidableEq

/-- What has to hold before an assignment for `post` to hold after it. -/
def Assign.wp (a : Assign) (post : Predicate) : Except WpError Predicate := do
  let a ← a.normalize.mapError .spec
  let σ ← (Substitution.ofTargets a.lvalues a.rvalues).mapError .subst
  (post.subst σ).mapError .subst

namespace Command

/-- What has to hold before an elementary command for `post` to hold after it. -/
def wp (post : Predicate) : Command → Except WpError Predicate
  | .abort _ => .ok (.const false)
  | .skip _ => .ok post
  | .assign a => a.wp post
  | .snapshot x t _ => (post.subst (.single x (.int t))).mapError .subst
  | .cond .. | .loop .. => .error .compound

/-- What has to hold before a sequence of elementary commands for `post` to hold after it. -/
def wpSeq (post : Predicate) : List Command → Except WpError Predicate
  | [] => .ok post
  | c :: cs => do
    let between ← wpSeq post cs
    c.wp between

end Command

end GuardedCommand
