import GuardedCommand.Syntax.Statement

/-! # Provenance of proof obligations

Every proof obligation carries the chain of proof steps it came from, outermost first. A `Frame` is
one such step: the rule that was applied, which of its premises is meant, and the text concerned.
Frames explain a failed obligation to its reader; no obligation depends on them.
-/

namespace GuardedCommand

/-- The proof rule a frame belongs to. -/
inductive FrameKind where
  /-- A sequence without choices and loops. -/
  | sequence
  /-- The rule for a choice between branches. -/
  | choice
  /-- The rule for a loop. -/
  | loop
  deriving DecidableEq, Repr

/-- One step of the derivation of a proof obligation. -/
structure Frame where
  /-- The rule applied. -/
  kind : FrameKind
  /-- Which premise of the rule it is, by the kind of fact it states. -/
  step : Option Nat := none
  /-- The branch concerned, counted from `1`. -/
  branch : Option Nat := none
  /-- The loop the rule was applied to, counted from `1` in the order of the text. -/
  loop : Option Nat := none
  /-- The loop inside that one whose branch is concerned. -/
  nestedLoop : Option Nat := none
  /-- The text concerned. -/
  range : TextRange
  deriving DecidableEq, Repr

/-- A predicate that has to hold in every state, and where it comes from. -/
structure Obligation where
  /-- What is to be proved. -/
  predicate : Predicate
  /-- The steps of its derivation, outermost first. -/
  context : List Frame
  deriving DecidableEq

/-- An ordinal such as `#3`; nothing where there is no number. -/
def ordinal : Option Nat → String
  | some n => "#" ++ toString n
  | none => ""

/-- What it means for the step of a frame to fail. -/
def Frame.message (f : Frame) : String :=
  let branch := ordinal f.branch
  let loop := "loop " ++ ordinal f.loop
  match f.kind, f.step with
  | .sequence, _ => "this sequence of commands does not establish what follows it"
  | .choice, some 1 => "the guards of this if statement can all be false at this point"
  | .choice, _ =>
    "branch " ++ branch ++ " of the if statement does not establish what follows it"
  | .loop, some 1 => "the invariant of " ++ loop ++ " does not hold on entry"
  | .loop, some 2 => "branch " ++ branch ++ " of " ++ loop ++ " does not preserve the invariant"
  | .loop, some 3 =>
    "the invariant and negated guards of " ++ loop ++ " do not establish what follows it"
  | .loop, some 4 => "the bound of " ++ loop ++ " is not positive while a guard holds"
  | .loop, some 5 => "branch " ++ branch ++ " of " ++ loop ++ " does not decrease the bound"
  | .loop, _ =>
    "branch " ++ branch ++ " of loop " ++ ordinal f.nestedLoop ++ " can change the bound of " ++ loop

end GuardedCommand
