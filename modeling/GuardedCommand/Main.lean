import GuardedCommand.CommandLine.Run

/-! # The program

Runs with the files of the system. The prover is not started from here: its answer to what `vcs`
prints is taken from the standard input, as in
`gcl vcs t.json | simplify -nosc | gcl verify t.json`. Directories cannot be listed, so a directory
of axioms counts as unreadable.
-/

namespace GuardedCommand

/-- The cause of an error of the system. -/
def FileError.ofSystem : IO.Error → FileError
  | .inappropriateType _ code _ =>
    if code = 21 then .isDirectory else .notDirectory
  | .permissionDenied .. => .notPermitted
  | .invalidArgument .. => .nameTooLong
  | _ => .notFound

/-- The bytes of a file. -/
def readSystemFile (path : String) : IO (Except FileError ByteArray) := do
  try
    let bytes ← IO.FS.readBinFile path
    pure (.ok bytes)
  catch e =>
    pure (.error (.ofSystem e))

/-- The lines that are left of a stream. -/
partial def readLines (stream : IO.FS.Stream) (seen : String) : IO String := do
  let line ← stream.getLine
  if line.isEmpty then pure seen else readLines stream (seen ++ line)

/-- The files of the system, and a prover whose output comes from the standard input. -/
def systemHost : Host IO where
  readFile := readSystemFile
  listDir := fun _ => pure (.error .notFound)
  isFile := fun path => do
    match ← readSystemFile path with
    | .ok _ => pure true
    | .error _ => pure false
  isPresent := fun path => do
    match ← readSystemFile path with
    | .ok _ | .error .isDirectory => pure true
    | .error _ => pure false
  runProver := fun _ _ => do
    let stdout ← readLines (← IO.getStdin) ""
    pure (.ok ⟨0, stdout, ""⟩)

/-- Prints what a run leaves. -/
def Transcript.print (t : Transcript) : IO Unit := do
  IO.print t.stdout
  for line in t.stderr do
    IO.eprintln line
  if t.misused then
    IO.eprint usage
  match t.failure with
  | none => pure ()
  | some e =>
    match e.code? with
    | some code => IO.eprintln s!"Error: {code}: {e.message}"
    | none => IO.eprintln s!"Error: {e.message}"

end GuardedCommand

open GuardedCommand in
/-- Runs the program with its arguments. -/
def main (args : List String) : IO UInt32 := do
  let command ← IO.getEnv "GCL_PROVER"
  let t ← run systemHost command args
  t.print
  pure t.exit.toUInt32
