/-! # Tables of a configuration text

A configuration text is a table of named values. A table may be written in parts, but each part in
one way only: under one header, by dotted keys, or in braces.

* `Toml`: the values. Of numbers, truth values and dates only the presence is kept.
* `Table.insert`: one more key with its value.
* `Table.openTable`, `Table.openElement`: the effect of the headers `[key]` and `[[key]]`.
-/

namespace GuardedCommand

/-- How a table came into being. -/
inductive TableOrigin where
  /-- By a header of its own, or as the whole text. -/
  | header
  /-- By the header of a table inside it. -/
  | implied
  /-- By a dotted key. -/
  | dotted
  /-- In braces; nothing can be added. -/
  | closed
  deriving DecidableEq

/-- A value of a configuration text. -/
inductive Toml where
  /-- A text. -/
  | text (s : String)
  /-- A number or a truth value. -/
  | scalar
  /-- A date, a time or both. -/
  | moment
  /-- A list in brackets. -/
  | list (items : List Toml)
  /-- A table. -/
  | table (origin : TableOrigin) (entries : List (String × Toml))
  /-- A list of tables, each with a header of its own, the last one first. -/
  | elements (tables : List Toml)

/-- A table: its origin and its entries. -/
abbrev Table := TableOrigin × List (String × Toml)

namespace Table

/-- A table as a value. -/
def toToml (t : Table) : Toml := .table t.1 t.2

/-- Puts a value under a key, instead of what is there. -/
def set (t : Table) (key : String) (v : Toml) : Table :=
  (t.1, (key, v) :: t.2.filter fun entry => entry.1 ≠ key)

/-- Changes the table at the end of some keys. Missing tables are made, dotted or implied. A list of
tables stands for its last one. Dotted keys do not lead into tables with a header. -/
def change (dotted : Bool) (f : Table → Option Table) : List String → Table → Option Table
  | [], t => f t
  | key :: keys, t =>
    match t.2.lookup key with
    | none => do
      let below ← change dotted f keys (if dotted then .dotted else .implied, [])
      some (t.set key below.toToml)
    | some (.table origin entries) =>
      if origin = .closed ∨ (dotted ∧ origin = .header) then none
      else do
        let below ← change dotted f keys (origin, entries)
        some (t.set key below.toToml)
    | some (.elements (.table origin entries :: others)) => do
      let below ← change dotted f keys (origin, entries)
      some (t.set key (.elements (below.toToml :: others)))
    | some _ => none

/-- Adds a value under a key that is not there yet. -/
def add (key : String) (v : Toml) (t : Table) : Option Table :=
  match t.2.lookup key with
  | none => some (t.set key v)
  | some _ => none

/-- Adds a value under a dotted key. A table is extended either by dotted keys or by plain ones. -/
def insert (keys : List String) (key : String) (v : Toml) (t : Table) : Option Table :=
  change true
    (fun below => if (below.1 = .dotted) = (keys = []) then none else add key v below) keys t

/-- Opens the table of a header. It may have been implied before. -/
def openTable (keys : List String) (key : String) (t : Table) : Option Table :=
  change false
    (fun parent =>
      match parent.2.lookup key with
      | none => some (parent.set key (.table .header []))
      | some (.table .implied entries) => some (parent.set key (.table .header entries))
      | some _ => none) keys t

/-- Opens one more element of a list of tables. -/
def openElement (keys : List String) (key : String) (t : Table) : Option Table :=
  change false
    (fun parent =>
      match parent.2.lookup key with
      | none => some (parent.set key (.elements [.table .header []]))
      | some (.elements tables) => some (parent.set key (.elements (.table .header [] :: tables)))
      | some _ => none) keys t

/-- Adds a value under a dotted key of the table under a header. -/
def insertUnder (header : List String) (keys : List String) (key : String) (v : Toml) (t : Table) :
    Option Table :=
  change false (insert keys key v) header t

end Table

end GuardedCommand
