import GuardedCommand.Obligation.Generate
import GuardedCommand.Prover.Registry
import GuardedCommand.Prover.Verdict
import GuardedCommand.Report.Diagnostic
import GuardedCommand.Task.Basic

/-! # Preparation of a task

Everything before the prover: read the task, expand its shorthands, normalize its assignments,
generate its obligations and lower them.

* `Task.prepare`: a batch for the prover, or the outcome of a task that needs none.
* `Batch.text`: what the prover gets.
-/

namespace GuardedCommand

/-- What a task comes to. -/
inductive Outcome where
  /-- Fields that cannot be read. -/
  | syntaxErrors (fields : List TaskField)
  /-- Obligations that do not hold, or loops that are not as specified. -/
  | semanticErrors (errors : List SemanticError)
  deriving DecidableEq

namespace Outcome

/-- Whether nothing is left to complain about. -/
def isSuccess : Outcome → Bool
  | .syntaxErrors _ => false
  | .semanticErrors errors => errors.isEmpty

/-- The number of errors. -/
def errorCount : Outcome → Nat
  | .syntaxErrors fields => fields.length
  | .semanticErrors errors => errors.length

/-- The outcome as lines for a reader. -/
def lines (path : String) : Outcome → List String
  | .syntaxErrors fields => fields.map fun f => s!"{path}: syntax error in {f.describe}"
  | .semanticErrors errors => errors.flatMap (SemanticError.lines path)

/-- The outcome as a JSON value. -/
def toJson : Outcome → Json
  | .syntaxErrors fields =>
    .obj [("parsingErrors", .arr (fields.map fun f => .obj [("field", .str f.describe)]))]
  | .semanticErrors errors => .obj [("semanticErrors", .arr (errors.map SemanticError.toJson))]

end Outcome

/-- Why a task cannot be carried out. -/
inductive VerifyError where
  /-- A substitution does not fit. -/
  | subst (e : SubstError)
  /-- A formula has no term. -/
  | lower (e : LowerError)
  /-- A shorthand is faulty. -/
  | shorthand (e : ShorthandError)
  /-- The specification or an assignment is faulty. -/
  | spec (e : SpecError)
  /-- The prover gives no verdicts. -/
  | prover (e : ProverError)
  /-- A command that should have been taken apart was not. -/
  | compound
  deriving DecidableEq

namespace VerifyError

/-- The error of a generation as that of a task. -/
def ofWp : WpError → VerifyError
  | .spec e => .spec e
  | .subst e => .subst e
  | .compound => .compound

/-- The text of an error. -/
def message : VerifyError → String
  | .subst e => e.message
  | .lower e => e.message
  | .shorthand e => e.message
  | .spec e => e.message
  | .prover e => e.message
  | .compound => "internal error: compound statement in an elementary sequence"

end VerifyError

/-- What goes to the prover, with the obligations that it stands for. -/
structure Batch where
  /-- The obligations. -/
  obligations : List Obligation
  /-- Their terms. -/
  formulas : List Term
  /-- The texts of the background definitions. -/
  definitions : List String

namespace Batch

/-- The definitions and then the formulas, each ended by a line break. -/
def text (b : Batch) : String :=
  String.join ((b.definitions ++ b.formulas.map Term.render).map fun s => trimRight s ++ "\n")

end Batch

/-- A task that is ready for the prover or needs none. -/
inductive Prepared where
  /-- The prover decides. -/
  | ready (b : Batch)
  /-- The outcome is known. -/
  | rejected (o : Outcome)

namespace Task

/-- The obligations of a specified program with shorthands. -/
def obligations (shorthands : List ShorthandDef) (spec : Spec) (program : Program) :
    Except VerifyError (List Obligation) := do
  let table ← (Shorthands.define shorthands).mapError .shorthand
  let spec ← (table.spec spec).mapError .shorthand
  let program ← (table.program program).mapError .shorthand
  let program ← program.normalize.mapError .spec
  (generate spec program).mapError .ofWp

/-- The terms of some obligations. -/
def formulas (triggers : List Trigger) (os : List Obligation) : Except LowerError (List Term) :=
  os.mapM fun o => o.predicate.lower triggers

/-- The batch of some obligations. -/
def batch (registry : Registry) (axioms : List String) (os : List Obligation) :
    Except VerifyError Batch := do
  let enabled ← (registry.enable axioms).mapError .lower
  let terms ← (formulas (Axiom.triggers enabled) os).mapError .lower
  .ok ⟨os, terms, enabled.map Axiom.definition⟩

/-- Takes a task as far as the prover. -/
def prepare (registry : Registry) (t : Task) : Except VerifyError Prepared :=
  match t.read with
  | .error fields => .ok (.rejected (.syntaxErrors fields))
  | .ok (spec, program) =>
    let loops := program.countLoops
    if loops = spec.loops.length then do
      let os ← obligations t.shorthands spec program
      let b ← batch registry t.axioms os
      .ok (.ready b)
    else
      let e := SemanticError.loopCountMismatch program.range loops spec.loops.length
      .ok (.rejected (.semanticErrors [e]))

end Task

end GuardedCommand
