import GuardedCommand.Toml.Basic
import GuardedCommand.Toml.Scalar
import GuardedCommand.Toml.Text

/-! # Reading a configuration text

A text is read line by line: a header, a key with its value, a comment or nothing. `Toml.read?`
gives the table of a text of the right form.
-/

namespace GuardedCommand.Toml

/-- What follows blanks. -/
def dropSpaces (cs : List Char) : List Char := cs.dropWhile isSpace

/-- What follows the end of a line, which may hold a comment. -/
def endLine? (cs : List Char) : Option (List Char) :=
  let cs := dropSpaces cs
  let cs := match cs with
    | '#' :: comment => comment.dropWhile isTextChar
    | cs => cs
  match cs with
  | [] => some []
  | '\n' :: cs => some cs
  | '\r' :: '\n' :: cs => some cs
  | _ => none

/-- What follows blanks, line breaks and comments. -/
def dropVoid (inComment : Bool) : List Char → List Char
  | [] => []
  | '\r' :: '\n' :: cs => dropVoid false cs
  | c :: cs =>
    if c == '\n' then dropVoid false cs
    else if inComment then
      if isTextChar c then dropVoid true cs else c :: cs
    else if isSpace c then dropVoid false cs
    else if c == '#' then dropVoid true cs
    else c :: cs

/-- Whether a character may stand in a key without quotes. -/
def isBareChar (c : Char) : Bool :=
  c.isAlphanum || c == '-' || c == '_'

/-- A key without dots: a word or a text on one line. -/
def simpleKey? : List Char → Option (String × List Char)
  | '"' :: cs => (basicText cs).map fun (s, rest) => (String.ofList s, rest)
  | '\'' :: cs => (literalText cs).map fun (s, rest) => (String.ofList s, rest)
  | cs =>
    let word := cs.takeWhile isBareChar
    if word.isEmpty then none else some (String.ofList word, cs.drop word.length)

/-- The greatest depth to which brackets and braces of a value may be nested, and the greatest
number of parts of a key. -/
def depthLimit : Nat := 79

/-- A key of at most as many parts as given, with dots between them. -/
def parts? : Nat → List Char → Option (List String × String × List Char)
  | 0, _ => none
  | n + 1, cs => do
    let (k, cs) ← simpleKey? (dropSpaces cs)
    match dropSpaces cs with
    | '.' :: cs => do
      let (ks, last, cs) ← parts? n cs
      some (k :: ks, last, cs)
    | cs => some ([], k, cs)

/-- A key: its last part after those that lead to it. -/
def key? (cs : List Char) : Option (List String × String × List Char) :=
  parts? depthLimit cs

/-- Whether a character may stand in a number, a truth value or a date. -/
def isScalarChar (c : Char) : Bool :=
  c.isAlphanum || c == '+' || c == '-' || c == '.' || c == '_' || c == ':'

/-- A number, a truth value or a date. Between a date and a time there may be a blank. -/
def scalar? (cs : List Char) : Option (Toml × List Char) :=
  let word := cs.takeWhile isScalarChar
  let rest := cs.drop word.length
  match isDate word, rest with
  | true, ' ' :: c :: more =>
    if c.isDigit then
      let time := (c :: more).takeWhile isScalarChar
      if isZonedTime time then some (.moment, (c :: more).drop time.length) else none
    else some (.moment, rest)
  | _, _ =>
    if isMoment word then some (.moment, rest)
    else if isScalar word then some (.scalar, rest)
    else none

mutual

/-- A value of at most as many parts as given, nested at most as deep as given. -/
def value? : Nat → Nat → List Char → Option (Toml × List Char)
  | 0, _, _ => none
  | n + 1, depth, cs =>
    match text? cs with
    | some found => found.map fun (s, rest) => (.text s, rest)
    | none =>
      match cs, depth with
      | '[' :: _, 0 | '\x7b' :: _, 0 => none
      | '[' :: cs, depth + 1 => do
        let (items, rest) ← items? n depth (dropVoid false cs)
        some (.list items, rest)
      | '\x7b' :: cs, depth + 1 =>
        match dropSpaces cs with
        | '\x7d' :: rest => some (.table .closed [], rest)
        | cs => do
          let (t, rest) ← entries? n depth (.header, []) cs
          some (.table .closed t.2, rest)
      | cs, _ => scalar? cs

/-- The items of a list, after its opening bracket and what separates it from the first one. -/
def items? : Nat → Nat → List Char → Option (List Toml × List Char)
  | 0, _, _ => none
  | n + 1, depth, cs =>
    match cs with
    | ']' :: rest => some ([], rest)
    | cs => do
      let (v, cs) ← value? n depth cs
      match dropVoid false cs with
      | ']' :: rest => some ([v], rest)
      | ',' :: cs => do
        let (vs, rest) ← items? n depth (dropVoid false cs)
        some (v :: vs, rest)
      | _ => none

/-- The entries of a table in braces, added to those before. -/
def entries? : Nat → Nat → Table → List Char → Option (Table × List Char)
  | 0, _, _, _ => none
  | n + 1, depth, t, cs => do
    let (ks, k, cs) ← key? cs
    match cs with
    | '=' :: cs => do
      let (v, cs) ← value? n depth (dropSpaces cs)
      let t ← t.insert ks k v
      match dropSpaces cs with
      | '\x7d' :: rest => some (t, rest)
      | ',' :: cs => entries? n depth t (dropSpaces cs)
      | _ => none
    | _ => none

end

/-- The lines of a text, of which there are at most as many as given, added to a table. Keys belong
to the table under the last header. -/
def lines? (size : Nat) : Nat → List String → Table → List Char → Option Table
  | 0, _, _, _ => none
  | n + 1, header, t, cs =>
    match dropSpaces cs with
    | [] => some t
    | '[' :: '[' :: cs => do
      let (ks, k, cs) ← key? cs
      match cs with
      | ']' :: ']' :: cs => do
        let t ← t.openElement ks k
        let cs ← endLine? cs
        lines? size n (ks ++ [k]) t cs
      | _ => none
    | '[' :: cs => do
      let (ks, k, cs) ← key? cs
      match cs with
      | ']' :: cs => do
        let t ← t.openTable ks k
        let cs ← endLine? cs
        lines? size n (ks ++ [k]) t cs
      | _ => none
    | c :: cs =>
      match endLine? (c :: cs) with
      | some cs => lines? size n header t cs
      | none => do
        let (ks, k, cs) ← key? (c :: cs)
        match cs with
        | '=' :: cs => do
          let (v, cs) ← value? size depthLimit (dropSpaces cs)
          let t ← t.insertUnder header ks k v
          let cs ← endLine? cs
          lines? size n header t cs
        | _ => none

/-- The characters of a text without a byte order mark. -/
def dropMark : List Char → List Char
  | '\ufeff' :: cs => cs
  | cs => cs

/-- The entries of the table that a text stands for. -/
def read? (s : String) : Option (List (String × Toml)) := do
  let cs := dropMark s.toList
  let size := 2 * cs.length + 2
  let t ← lines? size size [] (.header, []) cs
  some t.2

end GuardedCommand.Toml
