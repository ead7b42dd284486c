import GuardedCommand.Json.Basic
import GuardedCommand.Obligation.Frame
import GuardedCommand.Surface.Formula

/-! # Proof summaries

One summary for each obligation that went to the prover: its number, the step of the proof that it
belongs to, the condition and the answer.
-/

namespace GuardedCommand

/-- What the prover said of an obligation. -/
inductive ProofResult where
  /-- It holds. -/
  | proved
  /-- It does not, for a reason. -/
  | failed (reason : String)
  deriving DecidableEq

namespace ProofResult

/-- The result for a verdict. -/
def ofVerdict (valid : Bool) : ProofResult :=
  if valid then .proved else .failed "the prover found the condition invalid"

/-- Whether the obligation was proved. -/
def isProved : ProofResult → Bool
  | .proved => true
  | .failed _ => false

/-- The result in words. -/
def render : ProofResult → String
  | .proved => "PROVED"
  | .failed reason => s!"FAILED ({reason})"

/-- The result as a JSON value. -/
def toJson : ProofResult → Json
  | .proved => .obj [("status", .str "proved")]
  | .failed reason => .obj [("status", .str "failed"), ("reason", .str reason)]

end ProofResult

/-- What became of an obligation. -/
structure ProofSummary where
  /-- Its name, by its number. -/
  id : String
  /-- The step of the proof. -/
  claim : String
  /-- The condition. -/
  condition : String
  /-- The answer. -/
  result : ProofResult
  deriving DecidableEq

namespace ProofSummary

/-- The summary of the obligation with an index, counted from zero. -/
def ofVerdict (index : Nat) (o : Obligation) (valid : Bool) : ProofSummary where
  id := s!"vc-{index + 1}"
  claim := (o.context.head?.map Frame.message).getD "verification condition"
  condition := o.predicate.render
  result := .ofVerdict valid

/-- The summaries of obligations with their verdicts, numbered from an index. -/
def number : Nat → List (Obligation × Bool) → List ProofSummary
  | _, [] => []
  | index, (o, valid) :: rest => ofVerdict index o valid :: number (index + 1) rest

/-- A summary in three lines. -/
def render (s : ProofSummary) : String :=
  s!"{s.id}: {s.result.render}\n  {s.claim}\n  {s.condition}\n"

/-- Summaries one after the other. -/
def renderAll (summaries : List ProofSummary) : String :=
  String.join (summaries.map render)

/-- A summary as a JSON value. -/
def toJson (s : ProofSummary) : Json :=
  .obj [("id", .str s.id), ("claim", .str s.claim), ("condition", .str s.condition),
    ("result", s.result.toJson)]

/-- The number of proved obligations. -/
def provedCount (summaries : List ProofSummary) : Nat :=
  summaries.countP fun s => s.result.isProved

/-- The numbers of all, of proved and of failed obligations as a JSON value. -/
def countsToJson (summaries : List ProofSummary) : Json :=
  let proved := provedCount summaries
  .obj [("total", .ofNat summaries.length), ("proved", .ofNat proved),
    ("failed", .ofNat (summaries.length - proved))]

end ProofSummary

end GuardedCommand
