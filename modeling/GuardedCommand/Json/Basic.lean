/-! # JSON values

The data in which trees, tasks and reports are exchanged.

* `Number`: an integer of at most 64 bits, or any other number, of which only the text is kept.
* `Json`: a JSON value. Objects keep their fields in order, repeated ones included.
* `Json.nesting`, `Json.isReadable`: how deep a value nests, and whether it may be read at all.
* `Json.merged`: a value without repeated fields; the last of several counts.
-/

namespace GuardedCommand

/-- A JSON number. -/
inductive Number where
  /-- An integer between `-2^63` and `2^64 - 1`. -/
  | int (i : Int)
  /-- Any other number, by its text. -/
  | real (text : String)
  deriving DecidableEq, Repr

/-- A JSON value. -/
inductive Json where
  | null
  | bool (b : Bool)
  | num (n : Number)
  | str (s : String)
  | arr (items : List Json)
  | obj (fields : List (String × Json))
  /-- A text of the right form that stands for no value: a number beyond the range of double
  precision, a string with half of a surrogate pair, or an object with such a name of a field. -/
  | unreadable

instance : Inhabited Json := ⟨.null⟩

namespace Json

/-- Greatest number of arrays and objects that may be nested in one another. -/
def nestingLimit : Nat := 127

mutual

/-- Number of arrays and objects nested in one another. -/
def nesting : Json → Nat
  | .arr items => nestingItems items + 1
  | .obj fields => nestingFields fields + 1
  | _ => 0

/-- Greatest nesting of the items of an array. -/
def nestingItems : List Json → Nat
  | [] => 0
  | j :: js => max j.nesting (nestingItems js)

/-- Greatest nesting of the fields of an object. -/
def nestingFields : List (String × Json) → Nat
  | [] => 0
  | (_, j) :: fields => max j.nesting (nestingFields fields)

end

mutual

/-- Whether every part of a value can be read. -/
def isComplete : Json → Bool
  | .arr items => isCompleteItems items
  | .obj fields => isCompleteFields fields
  | .unreadable => false
  | _ => true

/-- Whether every item of an array can be read. -/
def isCompleteItems : List Json → Bool
  | [] => true
  | j :: js => j.isComplete && isCompleteItems js

/-- Whether every field of an object can be read. -/
def isCompleteFields : List (String × Json) → Bool
  | [] => true
  | (_, j) :: fields => j.isComplete && isCompleteFields fields

end

/-- Whether a value can be read: nothing in it is unreadable, and it does not nest too deep. -/
def isReadable (j : Json) : Bool :=
  j.isComplete && j.nesting ≤ nestingLimit

/-- Puts a field in its place among fields in the order of their names, in place of one of the same
name. -/
def insertField (name : String) (value : Json) : List (String × Json) → List (String × Json)
  | [] => [(name, value)]
  | (n, v) :: fields =>
    if name = n then (name, value) :: fields
    else if name < n then (name, value) :: (n, v) :: fields
    else (n, v) :: insertField name value fields

mutual

/-- The value with the fields of every object in the order of their names, the last of several
fields of one name instead of all. -/
def merged : Json → Json
  | .arr items => .arr (mergedItems items)
  | .obj fields => .obj (mergedFields fields [])
  | j => j

/-- The items of an array without repeated fields. -/
def mergedItems : List Json → List Json
  | [] => []
  | j :: js => j.merged :: mergedItems js

/-- The fields of an object, inserted one after the other. -/
def mergedFields : List (String × Json) → List (String × Json) → List (String × Json)
  | [], done => done
  | (n, j) :: fields, done => mergedFields fields (insertField n j.merged done)

end

/-- The value of the first field of a name. -/
def field? (j : Json) (name : String) : Option Json :=
  match j with
  | .obj fields => fields.lookup name
  | _ => none

/-- An integer as a JSON value. -/
def ofInt (i : Int) : Json := .num (.int i)

/-- A natural number as a JSON value. -/
def ofNat (n : Nat) : Json := .num (.int n)

end Json

end GuardedCommand
