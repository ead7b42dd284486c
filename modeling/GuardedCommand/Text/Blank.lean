/-! # Blanks and lines

* `isBlank`: the characters of the Unicode property `White_Space`.
* `trimRight`, `trim`: a text without blanks at its end, or at both ends.
* `lines`: the lines of a text, each ended by a line feed or by a carriage return and a line feed.
-/

namespace GuardedCommand

/-- Whether a character is white space. -/
def isBlank (c : Char) : Bool :=
  let n := c.toNat
  (9 ≤ n && n ≤ 13) || n == 0x20 || n == 0x85 || n == 0xA0 || n == 0x1680 ||
    (0x2000 ≤ n && n ≤ 0x200A) || n == 0x2028 || n == 0x2029 || n == 0x202F || n == 0x205F ||
    n == 0x3000

/-- Characters without blanks at the end. -/
def trimRightChars (cs : List Char) : List Char :=
  (cs.reverse.dropWhile isBlank).reverse

/-- A text without blanks at the end. -/
def trimRight (s : String) : String :=
  String.ofList (trimRightChars s.toList)

/-- A text without blanks at either end. -/
def trim (s : String) : String :=
  String.ofList (trimRightChars (s.toList.dropWhile isBlank))

/-- The characters of a line, last one first, without a carriage return at its end. -/
def dropReturn : List Char → List Char
  | '\r' :: seen => seen
  | seen => seen

/-- The lines of some characters, after those `seen` of the first line, last one first. After the
last line feed there is no further line. -/
def splitLines : List Char → List Char → List (List Char)
  | [], [] => []
  | [], seen => [seen.reverse]
  | '\n' :: cs, seen => (dropReturn seen).reverse :: splitLines cs []
  | c :: cs, seen => splitLines cs (c :: seen)

/-- The lines of a text, without what ends them. -/
def lines (s : String) : List String :=
  (splitLines s.toList []).map String.ofList

end GuardedCommand
