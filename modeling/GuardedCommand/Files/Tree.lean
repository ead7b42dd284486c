/-! # Trees of files

A file system in memory. A path is followed name by name; every name but the last one has to be a
directory. Names and paths may not be too long.

* `FileTree.find`: what is at a path.
* `FileTree.readFile`, `FileTree.listDir`: the content of a file or of a directory.
* `FileTree.insert`: a tree with one more file, and the directories above it.
-/

namespace GuardedCommand

/-- Why a file cannot be read or run. -/
inductive FileError where
  /-- There is nothing at the path. -/
  | notFound
  /-- Something above the file is no directory. -/
  | notDirectory
  /-- There is a directory at the path. -/
  | isDirectory
  /-- The path or a name in it is too long. -/
  | nameTooLong
  /-- The file may not be used in this way. -/
  | notPermitted
  /-- The bytes are no text. -/
  | notText
  /-- A word of a command line has a character of code zero. -/
  | nulCharacter
  deriving DecidableEq

/-- The text of an error. -/
def FileError.message : FileError → String
  | .notFound => "No such file or directory (os error 2)"
  | .notDirectory => "Not a directory (os error 20)"
  | .isDirectory => "Is a directory (os error 21)"
  | .nameTooLong => "File name too long (os error 36)"
  | .notPermitted => "Permission denied (os error 13)"
  | .notText => "stream did not contain valid UTF-8"
  | .nulCharacter => "nul byte found in provided data"

/-- The text of some bytes. -/
def decodeText (bytes : ByteArray) : Except FileError String :=
  match String.fromUTF8? bytes with
  | some s => .ok s
  | none => .error .notText

/-- A file, or a directory of named trees. -/
inductive FileTree where
  /-- A file with its content. -/
  | file (bytes : ByteArray)
  /-- A directory. -/
  | dir (entries : List (String × FileTree))

/-- Greatest number of bytes of a name. -/
def nameLimit : Nat := 255

/-- Greatest number of bytes of a path. -/
def pathLimit : Nat := 4095

namespace FileTree

/-- An empty directory. -/
def empty : FileTree := .dir []

/-- Goes one name further from a tree, which comes with those above it. -/
def step : List FileTree → String → Except FileError (List FileTree)
  | [], _ => .error .notFound
  | .file _ :: _, _ => .error .notDirectory
  | here@(.dir entries) :: above, name =>
    match name with
    | "" | "." => .ok (here :: above)
    | ".." => .ok (if above.isEmpty then [here] else above)
    | name =>
      if nameLimit < name.utf8ByteSize then .error .nameTooLong
      else
        match entries.lookup name with
        | some t => .ok (t :: here :: above)
        | none => .error .notFound

/-- Goes several names further. -/
def follow (start : List FileTree) (names : List String) : Except FileError (List FileTree) :=
  names.foldlM step start

/-- What is at a path, seen from a working directory. -/
def find (root : FileTree) (cwd path : String) : Except FileError FileTree := do
  if path.isEmpty then throw .notFound
  if pathLimit < path.utf8ByteSize then throw .nameTooLong
  let cwd := if path.startsWith "/" then [] else cwd.splitOn "/"
  let start ← follow [root] cwd
  match ← follow start (path.splitOn "/") with
  | t :: _ => .ok t
  | [] => .error .notFound

/-- The bytes of the file at a path. -/
def readFile (root : FileTree) (cwd path : String) : Except FileError ByteArray := do
  match ← root.find cwd path with
  | .file bytes => .ok bytes
  | .dir _ => .error .isDirectory

/-- The names in the directory at a path. -/
def listDir (root : FileTree) (cwd path : String) : Except FileError (List String) := do
  match ← root.find cwd path with
  | .file _ => .error .notDirectory
  | .dir entries => .ok (entries.map Prod.fst)

/-- Whether there is a file at a path. -/
def isFile (root : FileTree) (cwd path : String) : Bool :=
  match root.find cwd path with
  | .ok (.file _) => true
  | _ => false

/-- Whether there is anything at a path. -/
def isPresent (root : FileTree) (cwd path : String) : Bool :=
  match root.find cwd path with
  | .ok _ => true
  | .error _ => false

/-- A tree with another one at the end of some names; missing directories are made. -/
def insert (new : FileTree) : List String → FileTree → FileTree
  | [], _ => new
  | name :: names, .dir entries =>
    let below := (entries.lookup name).getD empty
    .dir ((name, insert new names below) :: entries.filter fun entry => entry.1 ≠ name)
  | _ :: _, .file bytes => .file bytes

end FileTree

end GuardedCommand
