import GuardedCommand.Json.Basic

/-! # Writing JSON

* `Json.compact`: a value on one line, without blanks.
* `Json.pretty`: a value with one item a line, indented by two blanks a level.

In strings only quotes, backslashes and control characters are escaped.
-/

namespace GuardedCommand.Json

/-- The hexadecimal digit of a number below `16`. -/
def hexDigit (n : Nat) : Char :=
  if n < 10 then Char.ofNat ('0'.toNat + n) else Char.ofNat ('a'.toNat + (n - 10))

/-- A character as it stands in a string. -/
def escapeChar (c : Char) : List Char :=
  if c = '"' then ['\\', '"']
  else if c = '\\' then ['\\', '\\']
  else if c = '\x08' then ['\\', 'b']
  else if c = '\t' then ['\\', 't']
  else if c = '\n' then ['\\', 'n']
  else if c = '\x0c' then ['\\', 'f']
  else if c = '\r' then ['\\', 'r']
  else if c.toNat < 0x20 then
    ['\\', 'u', '0', '0', hexDigit (c.toNat / 16), hexDigit (c.toNat % 16)]
  else [c]

/-- A string in quotes. -/
def quote (s : String) : String :=
  String.ofList ('"' :: s.toList.flatMap escapeChar ++ ['"'])

/-- A number as it is written. -/
def renderNumber : Number → String
  | .int i => toString i
  | .real text => text

mutual

/-- A value on one line. Something unreadable is written as the literal `null`. -/
def compact : Json → String
  | .null => "null"
  | .bool true => "true"
  | .bool false => "false"
  | .num n => renderNumber n
  | .str s => quote s
  | .arr items => "[" ++ compactItems items ++ "]"
  | .obj fields => "\x7b" ++ compactFields fields ++ "\x7d"
  | .unreadable => "null"

/-- The items of an array, separated by commas. -/
def compactItems : List Json → String
  | [] => ""
  | [j] => j.compact
  | j :: js => j.compact ++ "," ++ compactItems js

/-- The fields of an object, separated by commas. -/
def compactFields : List (String × Json) → String
  | [] => ""
  | [(name, j)] => quote name ++ ":" ++ j.compact
  | (name, j) :: fields => quote name ++ ":" ++ j.compact ++ "," ++ compactFields fields

end

/-- A line break, followed by the blanks of a level. -/
def lineBreak (level : Nat) : String :=
  "\n".pushn ' ' (2 * level)

mutual

/-- A value on several lines, its first line being at a level. -/
def prettyAt (level : Nat) : Json → String
  | .arr [] => "[]"
  | .arr items =>
    "[" ++ prettyItems (level + 1) items ++ lineBreak level ++ "]"
  | .obj [] => "\x7b\x7d"
  | .obj fields =>
    "\x7b" ++ prettyFields (level + 1) fields ++ lineBreak level ++ "\x7d"
  | .null => "null"
  | .bool true => "true"
  | .bool false => "false"
  | .num n => renderNumber n
  | .str s => quote s
  | .unreadable => "null"

/-- The items of an array, each on a line of its own. -/
def prettyItems (level : Nat) : List Json → String
  | [] => ""
  | [j] => lineBreak level ++ j.prettyAt level
  | j :: js => lineBreak level ++ j.prettyAt level ++ "," ++ prettyItems level js

/-- The fields of an object, each on a line of its own. -/
def prettyFields (level : Nat) : List (String × Json) → String
  | [] => ""
  | [(name, j)] => lineBreak level ++ quote name ++ ": " ++ j.prettyAt level
  | (name, j) :: fields =>
    lineBreak level ++ quote name ++ ": " ++ j.prettyAt level ++ "," ++ prettyFields level fields

end

/-- A value on several lines. -/
def pretty (j : Json) : String := j.prettyAt 0

end GuardedCommand.Json
