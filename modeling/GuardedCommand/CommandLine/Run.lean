import GuardedCommand.CommandLine.Arguments
import GuardedCommand.Config.Resolve
import GuardedCommand.Task.Verify

/-! # Runs

A run does what the arguments ask for. What it prints and how it ends is its `Transcript`.

* `verify` proves the obligations of a task and reports on them.
* `vcs` prints what the prover would get.
* `axioms` lists the axioms that a task may use.
-/

namespace GuardedCommand

/-- Why a run fails. -/
inductive RunError where
  /-- The configuration is faulty. -/
  | config (e : ConfigError)
  /-- A file cannot be read. -/
  | file (e : FileError)
  /-- The task is not of the right form. -/
  | task (path : String)
  /-- The directory of axioms cannot be read. -/
  | axiomDir (path : String)
  /-- The task cannot be carried out. -/
  | verify (e : VerifyError)
  /-- Some obligations do not hold. -/
  | unproved (count : Nat)
  /-- There are no obligations, because of errors. -/
  | notGenerated (count : Nat)
  deriving DecidableEq

namespace RunError

/-- The text of an error. -/
def message : RunError → String
  | .config e => e.message
  | .file e => e.message
  | .task path => s!"failed to parse task {displayPath path}"
  | .axiomDir path => s!"failed to read axiom definitions from `{path}`"
  | .verify e => e.message
  | .unproved count => s!"verification failed with {count} error(s)"
  | .notGenerated count => s!"no conditions generated: {count} error(s)"

/-- The class of an error, for those that have one. -/
def code? : RunError → Option String
  | .config _ | .axiomDir _ => some "gcl::config"
  | .verify (.subst _) => some "gcl::subst"
  | .verify (.lower _) => some "gcl::lower"
  | .verify (.shorthand _) | .verify (.spec _) => some "gcl::spec"
  | .verify (.prover _) => some "gcl::prover"
  | .verify .compound => some "gcl::internal"
  | .file _ | .task _ | .unproved _ | .notGenerated _ => none

end RunError

/-- What a run prints and how it ends. -/
structure Transcript where
  /-- The standard output. -/
  stdout : String := ""
  /-- The lines of diagnostics. -/
  stderr : List String := []
  /-- Why the run fails. -/
  failure : Option RunError := none
  /-- Whether the arguments make no sense. -/
  misused : Bool := false

namespace Transcript

/-- The exit status. -/
def exit (t : Transcript) : Nat :=
  if t.misused then 2 else if t.failure.isSome then 1 else 0

/-- A run that stops with an error. -/
def stop (e : RunError) : Transcript := { failure := some e }

end Transcript

/-- A text followed by blanks up to a width. -/
def padRight (width : Nat) (s : String) : String :=
  s.pushn ' ' (width - s.length)

/-- The line for an axiom. -/
def Axiom.line (a : Axiom) : String :=
  let kind := if a.trigger?.isSome then "trigger + definitions" else "definitions only"
  padRight 20 a.name ++ " " ++ kind ++ "\n"

/-- The names of the files that define axioms, in their order. -/
def axiomFiles (names : List String) : List String :=
  (names.filter fun name => fileExtension? name = some "ax").mergeSort fun a b => decide (a ≤ b)

/-- What is printed of the result of a task. -/
def Verification.transcript (path : String) (json : Bool) (v : Verification) : Transcript :=
  let success := v.outcome.isSuccess
  let failure := if success then none else some (RunError.unproved v.outcome.errorCount)
  if json then
    { stdout := (v.report path).pretty ++ "\n", failure }
  else
    let path := displayPath path
    let verdict :=
      if success then s!"verified {path}: {v.proofs.length} conditions proved\n" else ""
    { stdout := ProofSummary.renderAll v.proofs ++ verdict, stderr := v.outcome.lines path, failure }

/-- What is printed of a prepared task. -/
def Prepared.transcript (path : String) : Prepared → Transcript
  | .ready b => { stdout := b.text }
  | .rejected o =>
    { stderr := o.lines (displayPath path), failure := some (.notGenerated o.errorCount) }

variable {m : Type → Type} [Monad m]

/-- The task in a file. -/
def loadTask (host : Host m) (path : String) : m (Except RunError Task) := do
  match ← host.readText path with
  | .error e => pure (.error (.file e))
  | .ok text =>
    match Task.ofText? text with
    | some t => pure (.ok t)
    | none => pure (.error (.task path))

/-- A registry with the axioms of a directory, up to the first that cannot be read. -/
def Registry.loadDir (host : Host m) (r : Registry) (dir : String) :
    m (Registry × Except FileError (List String)) := do
  match ← host.listDir dir with
  | .error e => pure (r, .error e)
  | .ok names => do
    let files := axiomFiles names
    let texts ← host.readTexts (files.map (joinPath dir))
    pure (r.load ((files.map fun name => axiomName (fileStem name)).zip texts))

/-- The axioms of a configuration. -/
def loadRegistry (host : Host m) (config : Config) : m (Except RunError Registry) := do
  match config.axiomDir with
  | none => pure (.ok .builtin)
  | some dir =>
    match ← Registry.builtin.loadDir host dir with
    | (r, .ok _) => pure (.ok r)
    | (_, .error _) => pure (.error (.axiomDir dir))

/-- Proves a batch with the prover of a configuration. -/
def prove (host : Host m) (config : ProverConfig) (batch : String) (expected : Nat) :
    m (Except ProverError (List Bool)) := do
  let output ← host.runProver config batch
  pure (config.judge expected output)

/-- Proves the obligations of a task. -/
def runVerify (host : Host m) (config : Config) (path : String) (json : Bool)
    (source : Option String) : ExceptT RunError m Transcript := do
  let task ← ExceptT.mk (loadTask host path)
  let registry ← ExceptT.mk (loadRegistry host config)
  let result ← (task.verify registry (prove host config.prover) : m _)
  match result with
  | .error e => throw (.verify e)
  | .ok v =>
    match json, source with
    | false, some file =>
      match ← (host.readText file : m _) with
      | .error e => throw (.file e)
      | .ok _ => pure (v.transcript path json)
    | _, _ => pure (v.transcript path json)

/-- Prints what the prover would get. -/
def runVcs (host : Host m) (config : Config) (path : String) : ExceptT RunError m Transcript := do
  let task ← ExceptT.mk (loadTask host path)
  let registry ← ExceptT.mk (loadRegistry host config)
  match task.prepare registry with
  | .error e => throw (.verify e)
  | .ok prepared => pure (prepared.transcript path)

/-- Lists the axioms. -/
def runAxioms (host : Host m) (config : Config) : ExceptT RunError m Transcript := do
  let registry ← ExceptT.mk (loadRegistry host config)
  pure { stdout := String.join (registry.axioms.map Axiom.line) }

/-- Carries out an action. -/
def runAction (host : Host m) (command : Option String) (explicit : Option String) :
    Action → ExceptT RunError m Transcript
  | .verify path prover json source => do
    let config ← load path
    let config := match prover with
      | some command => { config with prover := { config.prover with command } }
      | none => config
    runVerify host config path json source
  | .vcs path => do
    let config ← load path
    runVcs host config path
  | .axioms path => do
    let config ← load path
    runAxioms host config
where
  /-- The configuration of a run on a path. -/
  load (path : String) : ExceptT RunError m Config :=
    ExceptT.mk do
      let config ← loadConfig host command path explicit
      pure (config.mapError RunError.config)

/-- The usage of the program. -/
def usage : String :=
  "Verification-condition generator for guarded-command programs\n\n" ++
  "Usage: gcl [--config FILE] verify FILE [--prover COMMAND] [--json] [--source FILE]\n" ++
  "       gcl [--config FILE] vcs FILE\n" ++
  "       gcl [--config FILE] axioms [PATH]\n"

/-- The version of the program. -/
def version : String := "gcl 0.2.0\n"

/-- A run with some arguments, given the prover of the environment. -/
def run (host : Host m) (command : Option String) (args : List String) : m Transcript := do
  match Invocation.ofArguments args with
  | .invalid => pure { misused := true }
  | .help => pure { stdout := usage }
  | .version => pure { stdout := version }
  | .act explicit action =>
    match ← (runAction host command explicit action).run with
    | .ok t => pure t
    | .error e => pure (.stop e)

end GuardedCommand
