import GuardedCommand.Report.Summary
import GuardedCommand.Task.Prepare

/-! # Verification of a task

The prover decides a batch at once. Its verdicts belong to the obligations in their order.

* `Batch.conclude`: the result for given verdicts.
* `Task.verify`: a task from beginning to end, in a monad that can run the prover.
-/

namespace GuardedCommand

/-- The result of a task. -/
structure Verification where
  /-- What it comes to. -/
  outcome : Outcome
  /-- What became of each obligation. -/
  proofs : List ProofSummary
  deriving DecidableEq

namespace Batch

/-- The result for the verdicts on the obligations. -/
def conclude (b : Batch) (verdicts : List Bool) : Verification :=
  let judged := b.obligations.zip verdicts
  let failed := judged.filter fun (_, valid) => !valid
  { outcome := .semanticErrors (failed.map fun (o, _) => .unproved o)
    proofs := ProofSummary.number 0 judged }

end Batch

/-- The result of a task that needs no prover. -/
def Outcome.verification (o : Outcome) : Verification := ⟨o, []⟩

namespace Task

/-- Verifies a task with a prover, which gets a batch and the number of its formulas. -/
def verify {m : Type → Type} [Monad m] (registry : Registry)
    (prove : String → Nat → m (Except ProverError (List Bool))) (t : Task) :
    m (Except VerifyError Verification) := do
  match t.prepare registry with
  | .error e => pure (.error e)
  | .ok (.rejected o) => pure (.ok o.verification)
  | .ok (.ready b) =>
    match ← prove b.text b.formulas.length with
    | .error e => pure (.error (.prover e))
    | .ok verdicts => pure (.ok (b.conclude verdicts))

end Task

/-- A path as reports show it, with slashes only. -/
def displayPath (path : String) : String :=
  String.ofList (path.toList.map fun c => if c = '\\' then '/' else c)

/-- The report on a task as a JSON value. -/
def Verification.report (path : String) (v : Verification) : Json :=
  .obj [("schema", .str "gcl.verify.v1"), ("input", .str (displayPath path)),
    ("ok", .bool v.outcome.isSuccess), ("outcome", v.outcome.toJson),
    ("proofs", ProofSummary.countsToJson v.proofs),
    ("conditions", .arr (v.proofs.map ProofSummary.toJson))]

end GuardedCommand
