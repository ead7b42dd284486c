import GuardedCommand.Interchange.Statement
import GuardedCommand.Obligation.Frame

/-! # Semantic errors

An obligation that does not hold is reported at the outermost step of its derivation; the steps
inside become notes.
-/

namespace GuardedCommand

/-- A remark on a place in the program. -/
structure Note where
  /-- The place. -/
  range : TextRange
  /-- The remark. -/
  message : String
  deriving DecidableEq

/-- An error at a place in the program, with notes. -/
structure SemanticError where
  /-- The place. -/
  range : TextRange
  /-- What is wrong. -/
  message : String
  /-- How it came about. -/
  notes : List Note := []
  deriving DecidableEq

/-- The note for a step of a derivation. -/
def Frame.note (f : Frame) : Note := ⟨f.range, f.message⟩

namespace SemanticError

/-- The error for an obligation that does not hold. -/
def unproved (o : Obligation) : SemanticError :=
  match o.context with
  | [] => { range := .zero, message := "a verification condition does not hold" }
  | outer :: inner =>
    { range := outer.range, message := outer.message, notes := inner.map Frame.note }

/-- The error for a program whose loops are not those that are specified. -/
def loopCountMismatch (range : TextRange) (loops specs : Nat) : SemanticError where
  range := range
  message := s!"the program has {loops} loops, but {specs} invariant/bound pairs were given"

/-- The error as lines for a reader; the first one names the file. -/
def lines (path : String) (e : SemanticError) : List String :=
  let start := e.range.start
  s!"{path}:{start.row}:{start.col}: error: {e.message}" ::
    e.notes.map fun note =>
      let start := note.range.start
      s!"  {start.row}:{start.col}: note: {note.message}"

end SemanticError

/-- A note as a JSON value. -/
def Note.toJson (note : Note) : Json :=
  .obj [("start", note.range.start.toJson), ("end", note.range.stop.toJson),
    ("message", .str note.message)]

/-- An error as a JSON value; without notes the field is left out. -/
def SemanticError.toJson (e : SemanticError) : Json :=
  .obj ([("start", e.range.start.toJson), ("end", e.range.stop.toJson),
    ("message", .str e.message)] ++
    if e.notes.isEmpty then [] else [("notes", .arr (e.notes.map Note.toJson))])

end GuardedCommand
