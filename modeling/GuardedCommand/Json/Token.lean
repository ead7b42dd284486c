import GuardedCommand.Json.Number

/-! # JSON tokens

A text is cut into tokens by a machine that looks at one character after the other: between tokens,
inside a literal or a number, or inside a string. Between tokens only blank, tab, line feed and
carriage return may stand.
-/

namespace GuardedCommand.Json

/-- A piece of a JSON text. -/
inductive Token where
  | beginArray
  | endArray
  | beginObject
  | endObject
  | comma
  | colon
  /-- A string. -/
  | text (s : String)
  /-- A string with half of a surrogate pair, which cannot be read. -/
  | brokenText
  /-- A literal or a number. -/
  | atom (j : Json)

/-- What a string is made of: characters, and halves of surrogate pairs given by escapes. -/
inductive TextUnit where
  | char (c : Char)
  | surrogate (n : Nat)

/-- The character with a code point, if there is one. -/
def charOfNat? (n : Nat) : Option Char :=
  if n.isValidChar then some (Char.ofNat n) else none

/-- The characters of a string; two halves of a surrogate pair make one character, and half a pair
makes none. -/
def joinUnits : List TextUnit → Option (List Char)
  | [] => some []
  | .char c :: rest => (joinUnits rest).map (c :: ·)
  | .surrogate high :: .surrogate low :: rest =>
    if high < 0xDC00 ∧ 0xDC00 ≤ low then do
      let c ← charOfNat? (0x10000 + (high - 0xD800) * 0x400 + (low - 0xDC00))
      (joinUnits rest).map (c :: ·)
    else none
  | .surrogate _ :: _ => none

/-- The unit with a four-digit code. -/
def unitOfCode (n : Nat) : TextUnit :=
  if 0xD800 ≤ n ∧ n ≤ 0xDFFF then .surrogate n else .char (Char.ofNat n)

/-- The value of a hexadecimal digit. -/
def hexDigit? (c : Char) : Option Nat :=
  if '0' ≤ c ∧ c ≤ '9' then some (c.toNat - '0'.toNat)
  else if 'a' ≤ c ∧ c ≤ 'f' then some (c.toNat - 'a'.toNat + 10)
  else if 'A' ≤ c ∧ c ≤ 'F' then some (c.toNat - 'A'.toNat + 10)
  else none

/-- The character an escape with one letter stands for. -/
def escaped? : Char → Option Char
  | '"' => some '"'
  | '\\' => some '\\'
  | '/' => some '/'
  | 'b' => some '\x08'
  | 'f' => some '\x0c'
  | 'n' => some '\n'
  | 'r' => some '\r'
  | 't' => some '\t'
  | _ => none

/-- Where in a text the machine is. Collected parts are in reverse order. -/
inductive Mode where
  /-- Between tokens. -/
  | between
  /-- In a literal or a number. -/
  | scalar (seen : List Char)
  /-- In a string. -/
  | string (seen : List TextUnit)
  /-- In a string, after a backslash. -/
  | escape (seen : List TextUnit)
  /-- In a string, in a code of which `missing + 1` digits are to come. -/
  | code (seen : List TextUnit) (value missing : Nat)

/-- Whether a character may stand in a literal or a number. -/
def isScalarChar (c : Char) : Bool :=
  c.isAlphanum || c = '-' || c = '+' || c = '.'

/-- The token of a finished literal or number. -/
def scalarToken (cs : List Char) : Option Token :=
  if cs = "null".toList then some (.atom .null)
  else if cs = "true".toList then some (.atom (.bool true))
  else if cs = "false".toList then some (.atom (.bool false))
  else (readNumber cs).map .atom

/-- The token of a finished string. -/
def textToken (units : List TextUnit) : Token :=
  match joinUnits units with
  | some cs => .text (String.ofList cs)
  | none => .brokenText

/-- What a character between tokens does. -/
def stepBetween (c : Char) (done : List Token) : Option (Mode × List Token) :=
  match c with
  | ' ' | '\t' | '\n' | '\r' => some (.between, done)
  | '[' => some (.between, .beginArray :: done)
  | ']' => some (.between, .endArray :: done)
  | '\x7b' => some (.between, .beginObject :: done)
  | '\x7d' => some (.between, .endObject :: done)
  | ',' => some (.between, .comma :: done)
  | ':' => some (.between, .colon :: done)
  | '"' => some (.string [], done)
  | c => if isScalarChar c then some (.scalar [c], done) else none

/-- What a character does; tokens are collected in reverse order. -/
def step (c : Char) (done : List Token) : Mode → Option (Mode × List Token)
  | .between => stepBetween c done
  | .scalar seen =>
    if isScalarChar c then some (.scalar (c :: seen), done)
    else do
      let token ← scalarToken seen.reverse
      stepBetween c (token :: done)
  | .string seen =>
    if c = '"' then some (.between, textToken seen.reverse :: done)
    else if c = '\\' then some (.escape seen, done)
    else if c.toNat < 0x20 then none
    else some (.string (.char c :: seen), done)
  | .escape seen =>
    if c = 'u' then some (.code seen 0 3, done)
    else (escaped? c).map fun e => (.string (.char e :: seen), done)
  | .code seen value missing => do
    let digit ← hexDigit? c
    let value := 16 * value + digit
    match missing with
    | 0 => some (.string (unitOfCode value :: seen), done)
    | n + 1 => some (.code seen value n, done)

/-- Runs the machine to the end of a text. -/
def scan : List Char → Mode → List Token → Option (List Token)
  | [], .between, done => some done.reverse
  | [], .scalar seen, done => do
    let token ← scalarToken seen.reverse
    some (token :: done).reverse
  | [], _, _ => none
  | c :: cs, mode, done =>
    match step c done mode with
    | some (mode, done) => scan cs mode done
    | none => none

/-- The tokens of a text. -/
def tokens (text : List Char) : Option (List Token) :=
  scan text .between []

end GuardedCommand.Json
