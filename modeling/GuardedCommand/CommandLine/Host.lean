import GuardedCommand.Files.Tree
import GuardedCommand.Prover.Verdict

/-! # What a run needs from outside

A run reads files and starts the prover. `Host` lists these operations for a monad, so that a run in
memory is a run like any other.

* `FileTree.startError`: why the prover cannot be started from a tree of files.
* `FileTree.host`: the system of such a tree.
-/

namespace GuardedCommand

/-- The operations of the system that a run uses. -/
structure Host (m : Type → Type) where
  /-- The bytes of the file at a path. -/
  readFile : String → m (Except FileError ByteArray)
  /-- The names in the directory at a path. -/
  listDir : String → m (Except FileError (List String))
  /-- Whether there is a file at a path. -/
  isFile : String → m Bool
  /-- Whether there is anything at a path. -/
  isPresent : String → m Bool
  /-- Runs the prover on an input, or says why it cannot be started. -/
  runProver : ProverConfig → String → m (Except String ProcessOutput)

namespace Host

variable {m : Type → Type} [Monad m]

/-- The text of the file at a path. -/
def readText (host : Host m) (path : String) : m (Except FileError String) := do
  match ← host.readFile path with
  | .ok bytes => pure (decodeText bytes)
  | .error e => pure (.error e)

/-- The first of some paths at which there is anything. -/
def firstPresent (host : Host m) : List String → m (Option String)
  | [] => pure none
  | path :: paths => do
    if ← host.isPresent path then pure (some path) else host.firstPresent paths

/-- The texts of some files, or why they cannot be read. -/
def readTexts (host : Host m) : List String → m (List (Except FileError String))
  | [] => pure []
  | path :: paths => do
    let text ← host.readText path
    let texts ← host.readTexts paths
    pure (text :: texts)

end Host

/-- Whether no word of the command line has a character of code zero, which would end it. -/
def ProverConfig.isPassable (config : ProverConfig) : Bool :=
  (config.command :: config.args).all fun word => !word.toList.contains '\x00'

/-- Why the prover cannot be started, given that no file of the tree may be run. A command with a
slash is a path. Any other is looked for where programs are installed: it is not there, or it names
a directory. -/
def FileTree.startError (root : FileTree) (cwd : String) (config : ProverConfig) : FileError :=
  let command := config.command
  if !config.isPassable then .nulCharacter
  else if command.toList.contains '/' then
    match root.find cwd command with
    | .ok _ => .notPermitted
    | .error e => e
  else if command = "." ∨ command = ".." then .notPermitted
  else if nameLimit < command.utf8ByteSize then .nameTooLong
  else .notFound

/-- A system of the files in memory, seen from a working directory, with a given prover. -/
def FileTree.host (root : FileTree) (cwd : String)
    (runProver : ProverConfig → String → Except String ProcessOutput) : Host Id where
  readFile := root.readFile cwd
  listDir := root.listDir cwd
  isFile := root.isFile cwd
  isPresent := root.isPresent cwd
  runProver := runProver

end GuardedCommand
