import GuardedCommand.Prover.Verdict
import GuardedCommand.Toml.Reader

/-! # Configuration files

A configuration file has two sections, `prover` and `axioms`, and both are optional. Keys of other
names are allowed inside the sections and have no effect. A section may also be a list of its values
in their declared order, or a date, which counts as a section without any of its keys.
-/

namespace GuardedCommand

/-- The content of a configuration file. -/
structure ConfigFile where
  /-- How to run the prover. -/
  prover : ProverConfig := {}
  /-- The directory of further axioms. -/
  axiomDir : Option String := none
  deriving DecidableEq

namespace Toml

/-- A text. -/
def asText? : Toml → Option String
  | .text s => some s
  | _ => none

/-- A list of texts. -/
def asTexts? : Toml → Option (List String)
  | .list items => items.mapM asText?
  | .elements [] => some []
  | _ => none

/-- The values of a section in the order of the names, where given. -/
def section? (names : List String) : Toml → Option (List (Option Toml))
  | .table _ entries => some (names.map fun name => entries.lookup name)
  | .list items => some ((List.range names.length).map fun i => items[i]?)
  | .elements tables => some ((List.range names.length).map fun i => tables.reverse[i]?)
  | .moment => some (names.map fun _ => none)
  | .text _ | .scalar => none

/-- A value that may be missing. -/
def orDefault {α : Type} (default : α) (read : Toml → Option α) : Option Toml → Option α
  | none => some default
  | some v => read v

end Toml

/-- Reads the section on the prover. -/
def ProverConfig.ofToml? (v : Toml) : Option ProverConfig := do
  let default : ProverConfig := {}
  match ← v.section? ["command", "args", "valid_suffix", "invalid_suffix"] with
  | [command, args, validSuffix, invalidSuffix] => do
    let command ← Toml.orDefault default.command Toml.asText? command
    let args ← Toml.orDefault default.args Toml.asTexts? args
    let validSuffix ← Toml.orDefault default.validSuffix Toml.asText? validSuffix
    let invalidSuffix ← Toml.orDefault default.invalidSuffix Toml.asText? invalidSuffix
    some { command, args, validSuffix, invalidSuffix }
  | _ => none

/-- Reads the section on axioms: their directory. -/
def Toml.axiomDir? (v : Toml) : Option (Option String) := do
  match ← v.section? ["dir"] with
  | [dir] => Toml.orDefault none (fun v => (Toml.asText? v).map some) dir
  | _ => none

namespace ConfigFile

/-- Reads the text of a configuration file. -/
def ofText? (text : String) : Option ConfigFile := do
  let entries ← Toml.read? text
  if entries.any fun entry => entry.1 ≠ "prover" ∧ entry.1 ≠ "axioms" then none
  else do
    let prover ← Toml.orDefault {} ProverConfig.ofToml? (entries.lookup "prover")
    let axiomDir ← Toml.orDefault none Toml.axiomDir? (entries.lookup "axioms")
    some { prover, axiomDir }

end ConfigFile

end GuardedCommand
