/-! # Texts of a configuration text

Texts in double quotes have escapes, texts in single quotes have none. With three quotes a text may
have several lines; a line break right after the opening quotes does not count, nor do blanks and
line breaks after a backslash at the end of a line.

Each reader starts after the opening quotes and gives the text and the rest.
-/

namespace GuardedCommand.Toml

/-- Whether a character may stand in a text or in a comment. -/
def isTextChar (c : Char) : Bool :=
  c == '\t' || (' ' ≤ c && c != '\x7f')

/-- Whether a character is a blank in a line. -/
def isSpace (c : Char) : Bool :=
  c == ' ' || c == '\t'

/-- Adds a character in front of a text that has been read. -/
def consRead (c : Char) (r : Option (List Char × List Char)) : Option (List Char × List Char) :=
  r.map fun (s, rest) => (c :: s, rest)

/-- The value of a hexadecimal digit. -/
def hexValue? (c : Char) : Option Nat :=
  if c.isDigit then some (c.toNat - '0'.toNat)
  else if 'a' ≤ c ∧ c ≤ 'f' then some (c.toNat - 'a'.toNat + 10)
  else if 'A' ≤ c ∧ c ≤ 'F' then some (c.toNat - 'A'.toNat + 10)
  else none

/-- The character with a code in hexadecimal digits. -/
def charOfHex? (ds : List Char) : Option Char := do
  let values ← ds.mapM hexValue?
  let n := values.foldl (fun n d => 16 * n + d) 0
  if h : n.isValidChar then some (Char.ofNatAux n h) else none

/-- The character of an escape of one letter. -/
def escapeOf? : Char → Option Char
  | 'b' => some '\x08'
  | 't' => some '\t'
  | 'n' => some '\n'
  | 'f' => some '\x0c'
  | 'r' => some '\r'
  | '"' => some '"'
  | '\\' => some '\\'
  | _ => none

/-- A text in double quotes. -/
def basicText : List Char → Option (List Char × List Char)
  | [] => none
  | '"' :: cs => some ([], cs)
  | '\\' :: 'u' :: a :: b :: c :: d :: cs => do
    let x ← charOfHex? [a, b, c, d]
    consRead x (basicText cs)
  | '\\' :: 'U' :: a :: b :: c :: d :: e :: f :: g :: h :: cs => do
    let x ← charOfHex? [a, b, c, d, e, f, g, h]
    consRead x (basicText cs)
  | '\\' :: c :: cs => do
    let x ← escapeOf? c
    consRead x (basicText cs)
  | c :: cs => if isTextChar c && c != '\\' then consRead c (basicText cs) else none

/-- Whether a line ends here, after blanks. -/
def endsLine (cs : List Char) : Bool :=
  match cs.dropWhile isSpace with
  | '\n' :: _ => true
  | '\r' :: '\n' :: _ => true
  | _ => false

/-- A text in three double quotes. While `skipping`, blanks and line breaks do not count. -/
def basicLines (skipping : Bool) : List Char → Option (List Char × List Char)
  | [] => none
  | '"' :: '"' :: '"' :: '"' :: '"' :: cs => some (['"', '"'], cs)
  | '"' :: '"' :: '"' :: '"' :: cs => some (['"'], cs)
  | '"' :: '"' :: '"' :: cs => some ([], cs)
  | '\r' :: '\n' :: cs => if skipping then basicLines true cs else consRead '\n' (basicLines false cs)
  | '\\' :: 'u' :: a :: b :: c :: d :: cs => do
    let x ← charOfHex? [a, b, c, d]
    consRead x (basicLines false cs)
  | '\\' :: 'U' :: a :: b :: c :: d :: e :: f :: g :: h :: cs => do
    let x ← charOfHex? [a, b, c, d, e, f, g, h]
    consRead x (basicLines false cs)
  | '\\' :: c :: cs =>
    match escapeOf? c with
    | some x => consRead x (basicLines false cs)
    | none => if endsLine (c :: cs) then basicLines true (c :: cs) else none
  | c :: cs =>
    if skipping && (isSpace c || c == '\n') then basicLines true cs
    else if (isTextChar c || c == '\n') && c != '\\' then consRead c (basicLines false cs)
    else none

/-- A text in single quotes. -/
def literalText : List Char → Option (List Char × List Char)
  | [] => none
  | '\'' :: cs => some ([], cs)
  | c :: cs => if isTextChar c then consRead c (literalText cs) else none

/-- A text in three single quotes. -/
def literalLines : List Char → Option (List Char × List Char)
  | [] => none
  | '\'' :: '\'' :: '\'' :: '\'' :: '\'' :: cs => some (['\'', '\''], cs)
  | '\'' :: '\'' :: '\'' :: '\'' :: cs => some (['\''], cs)
  | '\'' :: '\'' :: '\'' :: cs => some ([], cs)
  | '\r' :: '\n' :: cs => consRead '\n' (literalLines cs)
  | c :: cs => if isTextChar c || c == '\n' then consRead c (literalLines cs) else none

/-- What follows opening quotes, without a line break right after them. -/
def dropLineBreak : List Char → List Char
  | '\n' :: cs => cs
  | '\r' :: '\n' :: cs => cs
  | cs => cs

/-- A text with its quotes, if there is one. -/
def text? : List Char → Option (Option (String × List Char))
  | '"' :: '"' :: '"' :: cs =>
    some ((basicLines false (dropLineBreak cs)).map fun (s, rest) => (String.ofList s, rest))
  | '\'' :: '\'' :: '\'' :: cs =>
    some ((literalLines (dropLineBreak cs)).map fun (s, rest) => (String.ofList s, rest))
  | '"' :: cs => some ((basicText cs).map fun (s, rest) => (String.ofList s, rest))
  | '\'' :: cs => some ((literalText cs).map fun (s, rest) => (String.ofList s, rest))
  | _ => none

end GuardedCommand.Toml
