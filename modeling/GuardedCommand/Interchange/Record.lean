import GuardedCommand.Json.Printer
import GuardedCommand.Json.Reader

/-! # Records in JSON

A record is an object with named fields, or an array of the fields in their declared order. A node
of a tree is a record with a tag that tells its sort: the field `type` of the object, or the first
item of the array.

* `Field`: the declaration of a field, which may have several names and may be missing.
* `Fields.values`: the values of declared fields. Undeclared names are ignored; a declared field may
  not be repeated, and an array may not be longer than the declaration.
* `Json.node?`: the tag and the fields of a node. A tag may also be given by its number among the
  possible ones, except at the root of a text.
* `Json.readText?`: a value from a text.
* `Json.sourceText`: the text at a place that holds either a value or, as a string, its text.
-/

namespace GuardedCommand

/-- The declaration of a field. -/
structure Field where
  /-- The names under which the field may be given. -/
  names : List String
  /-- Whether the field may be missing. -/
  optional : Bool := false

/-- A field with one name, which has to be given. -/
def Field.required (name : String) : Field := { names := [name] }

/-- A field with one name, which may be missing. -/
def Field.optionally (name : String) : Field := { names := [name], optional := true }

/-- The fields of a record as they are given. -/
inductive Fields where
  /-- Fields with their names. -/
  | named (fields : List (String × Json))
  /-- Fields in their declared order. -/
  | listed (items : List Json)

namespace Fields

/-- The value of a field among named ones; a missing one has none. -/
def namedValue (fields : List (String × Json)) (f : Field) : Option (Option Json) :=
  match fields.filter fun given => f.names.contains given.1 with
  | [] => if f.optional then some none else none
  | [(_, j)] => some (some j)
  | _ => none

/-- The values of declared fields among listed ones. -/
def listedValues : List Field → List Json → Option (List (Option Json))
  | [], [] => some []
  | [], _ :: _ => none
  | f :: fs, [] => if f.optional then (listedValues fs []).map (none :: ·) else none
  | _ :: fs, j :: js => (listedValues fs js).map (some j :: ·)

/-- The values of declared fields, in the order of their declaration. -/
def values (declared : List Field) : Fields → Option (List (Option Json))
  | .named fields => declared.mapM (namedValue fields)
  | .listed items => listedValues declared items

/-- The values of fields that have to be given. -/
def required (names : List String) (fields : Fields) : Option (List Json) := do
  let vs ← fields.values (names.map Field.required)
  vs.mapM id

end Fields

namespace Json

/-- The fields of a record without a tag. -/
def record? : Json → Option Fields
  | .obj fields => some (.named fields)
  | .arr items => some (.listed items)
  | _ => none

/-- The name of the field that holds the tag of a node. -/
def tagField : String := "type"

/-- A tag among the possible ones, given by its word or, where that is allowed, by its number. -/
def tag? (spelledOut : Bool) (tags : List String) : Json → Option String
  | .str s => if tags.contains s then some s else none
  | .num (.int i) => if spelledOut ∨ i < 0 then none else tags[i.toNat]?
  | _ => none

/-- The tag and the fields of a node. With `spelledOut` the tag has to be a word. -/
def node? (spelledOut : Bool) (tags : List String) : Json → Option (String × Fields)
  | .obj fields =>
    match fields.filter fun given => given.1 = tagField with
    | [(_, t)] => do
      let tag ← tag? spelledOut tags t
      some (tag, .named (fields.filter fun given => given.1 ≠ tagField))
    | _ => none
  | .arr (t :: items) => do
    let tag ← tag? spelledOut tags t
    some (tag, .listed items)
  | _ => none

/-- A string. -/
def string? : Json → Option String
  | .str s => some s
  | _ => none

/-- A truth value. -/
def bool? : Json → Option Bool
  | .bool b => some b
  | _ => none

/-- A signed integer of at most 64 bits. -/
def int? : Json → Option Int
  | .num (.int i) => if -Nat.pow 2 63 ≤ i ∧ i < Nat.pow 2 63 then some i else none
  | _ => none

/-- A natural number of at most 64 bits. -/
def nat? : Json → Option Nat
  | .num (.int i) => if 0 ≤ i ∧ i < Nat.pow 2 64 then some i.toNat else none
  | _ => none

/-- A list of values, each read in the same way. -/
def list? {α : Type} (item : Json → Option α) : Json → Option (List α)
  | .arr items => items.mapM item
  | _ => none

/-- Drops what is given for names other than the listed ones. -/
def keepFields (names : List String) : Json → Json
  | .obj fields => .obj (fields.map fun (n, j) => (n, if names.contains n then j else .null))
  | j => j

/-- Changes what is given for one name, or at its place in an array. -/
def changeField (name : String) (place : Nat) (change : Json → Json) : Json → Json
  | .obj fields => .obj (fields.map fun (n, j) => (n, if n = name then change j else j))
  | .arr items => .arr (items.modify place change)
  | j => j

/-- Reads a text. What `prune` drops need not be readable. -/
def readText? {α : Type} (prune : Json → Json) (decode : Json → Option α) (text : String) :
    Option α := do
  let j ← parse? text
  let j := prune j
  if j.isReadable then decode j else none

/-- The text at a place that holds a value or, as a string, its text. -/
def sourceText : Json → String
  | .str text => text
  | j => j.merged.compact

end Json

end GuardedCommand
