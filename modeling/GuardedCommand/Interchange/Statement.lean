import GuardedCommand.Interchange.Formula
import GuardedCommand.Syntax.Statement

/-! # Programs in JSON

Statements are nodes like those of formulas. The text range of a statement may be missing and is
then all zero. A program is a record with one field or just the list of its statements; since a
record may be an array of its fields, a list that holds one list of statements is a program as well.
-/

namespace GuardedCommand

namespace Position

/-- A position as a JSON value. -/
def toJson (p : Position) : Json :=
  .obj [("row", .ofNat p.row), ("col", .ofNat p.col)]

/-- Reads a position. -/
def ofJson? (j : Json) : Option Position := do
  match ← (← j.record?).required ["row", "col"] with
  | [row, col] => do
    let row ← row.nat?
    let col ← col.nat?
    some ⟨row, col⟩
  | _ => none

/-- Drops what a position does not need. -/
def prune : Json → Json := Json.keepFields ["row", "col"]

/-- Reads the text of a position. -/
def ofText? (text : String) : Option Position := Json.readText? prune ofJson? text

end Position

namespace TextRange

/-- A text range as a JSON value. -/
def toJson (r : TextRange) : Json :=
  .obj [("start", r.start.toJson), ("end", r.stop.toJson)]

/-- Reads a text range. -/
def ofJson? (j : Json) : Option TextRange := do
  match ← (← j.record?).required ["start", "end"] with
  | [start, stop] => do
    let start ← Position.ofJson? start
    let stop ← Position.ofJson? stop
    some ⟨start, stop⟩
  | _ => none

/-- Drops what a text range does not need. -/
def prune (j : Json) : Json :=
  let j := j.changeField "start" 0 Position.prune
  let j := j.changeField "end" 1 Position.prune
  j.keepFields ["start", "end"]

/-- Reads the text of a text range. -/
def ofText? (text : String) : Option TextRange := Json.readText? prune ofJson? text

end TextRange

/-- A text range that may be missing. -/
def textRange? : Option Json → Option TextRange
  | none => some .zero
  | some j => TextRange.ofJson? j

namespace Assign

/-- The fields of an assignment. -/
def fieldNames : List String := ["lvalues", "rvalues", "textRange"]

/-- The fields of an assignment as JSON values. -/
def toFields (a : Assign) : List (String × Json) :=
  [("lvalues", .arr (a.lvalues.map Variable.toJson)),
    ("rvalues", .arr (a.rvalues.map Expr.toJson)), ("textRange", a.range.toJson)]

/-- Reads the fields of an assignment, given how to read its targets and values. -/
def ofFields? (lvalue : Json → Option Variable) (rvalue : Json → Option Expr) (fields : Fields) :
    Option Assign := do
  match ← fields.values [.required "lvalues", .required "rvalues", .optionally "textRange"] with
  | [some lvalues, some rvalues, range] => do
    let lvalues ← lvalues.list? lvalue
    let rvalues ← rvalues.list? rvalue
    let range ← textRange? range
    some ⟨lvalues, rvalues, range⟩
  | _ => none

/-- Reads an assignment without a tag. -/
def ofJson? (j : Json) : Option Assign := do
  let fields ← j.record?
  ofFields? (Variable.decode j.nesting true) (Expr.decode j.nesting) fields

/-- Drops what an assignment does not need. -/
def prune (j : Json) : Json :=
  (j.changeField "textRange" 2 TextRange.prune).keepFields fieldNames

/-- Reads the text of an assignment. -/
def ofText? (text : String) : Option Assign := Json.readText? prune ofJson? text

end Assign

namespace Statement

/-- The words for statements. -/
def tags : List String := ["abort", "skip", "assign", "if", "do"]

mutual

/-- A statement as a JSON value. -/
def toJson : Statement → Json
  | .abort r => .node "abort" [("textRange", r.toJson)]
  | .skip r => .node "skip" [("textRange", r.toJson)]
  | .assign a => .node "assign" a.toFields
  | .cond guards bodies r =>
    .node "if"
      [("guards", .arr (guards.map Predicate.toJson)), ("commands", .arr (toJsonBodies bodies)),
        ("textRange", r.toJson)]
  | .loop guards bodies r =>
    .node "do"
      [("guards", .arr (guards.map Predicate.toJson)), ("commands", .arr (toJsonBodies bodies)),
        ("textRange", r.toJson)]

/-- Statements as JSON values. -/
def toJsonSeq : List Statement → List Json
  | [] => []
  | s :: ss => s.toJson :: toJsonSeq ss

/-- Bodies as JSON values. -/
def toJsonBodies : List (List Statement) → List Json
  | [] => []
  | b :: bs => .arr (toJsonSeq b) :: toJsonBodies bs

end

/-- Reads a statement that nests at most as deep as given. -/
def decode : Nat → Bool → Json → Option Statement
  | 0, _, _ => none
  | n + 1, spelledOut, j => do
    let range (fields : Fields) : Option TextRange := do
      match ← fields.values [.optionally "textRange"] with
      | [r] => textRange? r
      | _ => none
    let guarded (fields : Fields) :
        Option (List Predicate × List (List Statement) × TextRange) := do
      let declared := [.required "guards", .required "commands", .optionally "textRange"]
      match ← fields.values declared with
      | [some guards, some bodies, r] => do
        let guards ← guards.list? (Predicate.decode n false)
        let bodies ← bodies.list? (Json.list? (decode n false))
        let r ← textRange? r
        some (guards, bodies, r)
      | _ => none
    let (tag, fields) ← j.node? spelledOut tags
    match tag with
    | "abort" => (range fields).map .abort
    | "skip" => (range fields).map .skip
    | "assign" => (Assign.ofFields? (Variable.decode n false) (Expr.decode n) fields).map .assign
    | "if" => do
      let (guards, bodies, r) ← guarded fields
      some (.cond guards bodies r)
    | "do" => do
      let (guards, bodies, r) ← guarded fields
      some (.loop guards bodies r)
    | _ => none

/-- Reads a statement. -/
def ofJson? (j : Json) : Option Statement := decode j.nesting true j

/-- Reads the text of a statement. -/
def ofText? (text : String) : Option Statement := Json.readText? id ofJson? text

end Statement

namespace Program

/-- A program as a JSON value. -/
def toJson (p : Program) : Json :=
  .obj [("statements", .arr (Statement.toJsonSeq p.statements))]

/-- Reads a program: a record with its statements, else the list of them. -/
def ofJson? (j : Json) : Option Program :=
  let statements := Json.list? (Statement.decode j.nesting false)
  let ofRecord : Option Program := do
    match ← (← j.record?).required ["statements"] with
    | [ss] => (statements ss).map Program.mk
    | _ => none
  ofRecord <|> (statements j).map Program.mk

/-- Reads the text of a program. -/
def ofText? (text : String) : Option Program := Json.readText? id ofJson? text

end Program

end GuardedCommand
