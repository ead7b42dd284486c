import GuardedCommand.CommandLine.Host
import GuardedCommand.Config.Basic
import GuardedCommand.Files.Path

/-! # The configuration of a run

The configuration file is the one that is asked for, else the nearest `gcl.toml` in the directory of
the task or above it, else none. A relative directory of axioms is meant relative to the file. A
prover given by the environment wins over that of the file, unless it is blank.
-/

namespace GuardedCommand

/-- The configuration of a run. -/
structure Config where
  /-- The configuration file. -/
  path : Option String := none
  /-- How to run the prover. -/
  prover : ProverConfig := {}
  /-- The directory of further axioms. -/
  axiomDir : Option String := none
  deriving DecidableEq

/-- What is wrong with a configuration file. -/
inductive ConfigError where
  /-- It cannot be read. -/
  | unreadable (path : String) (e : FileError)
  /-- Its content makes no sense. -/
  | malformed (path : String)
  deriving DecidableEq

/-- The text of an error. -/
def ConfigError.message : ConfigError → String
  | .unreadable path e => s!"config error: failed to read {path}: {e.message}"
  | .malformed path => s!"config error: failed to parse {path}"

/-- The name of a configuration file. -/
def configName : String := "gcl.toml"

/-- The path of a directory that a configuration file names. -/
def resolveDir (configPath dir : String) : String :=
  joinPath ((parentPath? configPath).getD ".") dir

/-- The configuration that a file at a path stands for. -/
def ConfigFile.resolve (path : String) (f : ConfigFile) : Config where
  path := some path
  prover := f.prover
  axiomDir := f.axiomDir.map (resolveDir path)

/-- A configuration with the prover of the environment. -/
def Config.withCommand (c : Config) : Option String → Config
  | none => c
  | some command =>
    if (trim command).isEmpty then c else { c with prover := { c.prover with command } }

variable {m : Type → Type} [Monad m]

/-- The nearest configuration file of a path. -/
def findConfig (host : Host m) (start : String) : m (Option String) := do
  let base := if ← host.isFile start then parentPath? start else some start
  match base with
  | none => pure none
  | some base => host.firstPresent ((ancestorPaths base).map (joinPath · configName))

/-- The configuration in the file at a path. -/
def readConfig (host : Host m) (path : String) : m (Except ConfigError Config) := do
  match ← host.readText path with
  | .error e => pure (.error (.unreadable path e))
  | .ok text =>
    match ConfigFile.ofText? text with
    | none => pure (.error (.malformed path))
    | some f => pure (.ok (f.resolve path))

/-- The configuration of a run on a path, given the file that is asked for and the prover of the
environment. -/
def loadConfig (host : Host m) (command : Option String) (start : String)
    (explicit : Option String) : m (Except ConfigError Config) := do
  let path ← match explicit with
    | some path => pure (some path)
    | none => findConfig host start
  let config ← match path with
    | some path => readConfig host path
    | none => pure (.ok {})
  pure (config.map fun c => c.withCommand command)

end GuardedCommand
