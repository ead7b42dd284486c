import GuardedCommand.Source.Position
import GuardedCommand.Text.Blank

/-! # Verdicts of the prover

The prover answers a batch of formulas with one verdict a line. A line that ends in one of two
keywords is a verdict, all others are skipped.

* `ProverConfig.verdicts`: the verdicts in an output.
* `ProverConfig.judge`: the verdicts of a run, which has to succeed and to give as many as asked
  for.
-/

namespace GuardedCommand

/-- How to run the prover and to read its output. -/
structure ProverConfig where
  /-- The executable. -/
  command : String := "simplify"
  /-- Its arguments. -/
  args : List String := ["-nosc"]
  /-- The end of a line that says that a formula is valid. -/
  validSuffix : String := "Valid."
  /-- The end of a line that says that a formula is invalid. -/
  invalidSuffix : String := "Invalid."
  deriving DecidableEq

/-- What a process that has ended leaves. -/
structure ProcessOutput where
  /-- The exit status. -/
  exit : Nat
  /-- The standard output. -/
  stdout : String
  /-- The standard error output. -/
  stderr : String

/-- Why there are no verdicts. -/
inductive ProverError where
  /-- The prover could not be started. -/
  | notStarted (command reason : String)
  /-- The prover failed. -/
  | exited (command : String) (status : Nat) (stderr : String)
  /-- The output has too few or too many verdicts. -/
  | verdictCount (expected got : Nat)
  deriving DecidableEq

/-- The text of an error. -/
def ProverError.message : ProverError → String
  | .notStarted command reason => s!"failed to run prover `{command}`: {reason}"
  | .exited command status stderr =>
    s!"prover `{command}` exited with exit status: {status}: {stderr}"
  | .verdictCount expected got =>
    s!"prover returned {got} verdicts for {expected} verification conditions"

/-- Whether a line ends in a keyword. -/
def endsIn (keyword line : String) : Bool :=
  keyword.toList.isSuffixOf line.toList

namespace ProverConfig

/-- The verdict of a line. If one keyword is the end of the other, the longer one counts. -/
def verdict? (config : ProverConfig) (line : String) : Option Bool :=
  match endsIn config.validSuffix line, endsIn config.invalidSuffix line with
  | true, true =>
    some (decide (byteLength config.invalidSuffix.toList < byteLength config.validSuffix.toList))
  | true, false => some true
  | false, true => some false
  | false, false => none

/-- The verdicts in an output, line by line; blanks at the end of a line do not count. -/
def verdicts (config : ProverConfig) (stdout : String) : List Bool :=
  (lines stdout).filterMap fun line => config.verdict? (trimRight line)

/-- The verdicts of a run, or of an attempt that failed for a reason. -/
def judge (config : ProverConfig) (expected : Nat) :
    Except String ProcessOutput → Except ProverError (List Bool)
  | .error reason => .error (.notStarted config.command reason)
  | .ok output =>
    if output.exit ≠ 0 then .error (.exited config.command output.exit (trim output.stderr))
    else
      let answers := config.verdicts output.stdout
      if answers.length = expected then .ok answers
      else .error (.verdictCount expected answers.length)

end ProverConfig

end GuardedCommand
