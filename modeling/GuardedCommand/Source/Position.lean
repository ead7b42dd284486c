/-! # Positions in a source text

A statement carries the range of text it was written in. Ranges never take part in a proof; they
only say where a failed condition comes from. This file converts rows and columns to byte offsets.

* `Position`: a row, counted from `1`, and a byte column, counted from `0`.
* `Position.offsetIn`: the byte offset of a position, clamped to its line and to the text.
* `TextRange.spanIn`: a range as an offset and a length, which is empty for a reversed range.
-/

namespace GuardedCommand

/-- Number of bytes of a character sequence in UTF-8. -/
def byteLength (cs : List Char) : Nat :=
  cs.foldr (fun c n => c.utf8Size + n) 0

/-- No characters take no bytes. -/
@[simp] theorem byteLength_nil : byteLength [] = 0 := rfl

/-- The first character takes its bytes, and the rest take theirs. -/
@[simp] theorem byteLength_cons (c : Char) (cs : List Char) :
    byteLength (c :: cs) = c.utf8Size + byteLength cs := rfl

/-- The bytes of characters add up. -/
@[simp] theorem byteLength_append (cs ds : List Char) :
    byteLength (cs ++ ds) = byteLength cs + byteLength ds := by
  induction cs with
  | nil => rw [List.nil_append, byteLength_nil, Nat.zero_add]
  | cons c cs ih => rw [List.cons_append, byteLength_cons, ih, byteLength_cons, Nat.add_assoc]

/-- A place in a text. Rows start at `1`, columns count bytes and start at `0`. -/
structure Position where
  /-- Line number; `0` stands for the first line as well. -/
  row : Nat
  /-- Bytes between the start of the line and this place. -/
  col : Nat
  deriving DecidableEq, Repr, Inhabited

/-- The part of a text between two positions. -/
structure TextRange where
  /-- Where the range begins. -/
  start : Position
  /-- Where the range ends. -/
  stop : Position
  deriving DecidableEq, Repr, Inhabited

/-- A range as a byte offset and a number of bytes. -/
structure Span where
  /-- Byte offset of the first byte. -/
  offset : Nat
  /-- Number of bytes. -/
  length : Nat
  deriving DecidableEq, Repr

namespace Position

/-- The all-zero position, used where no text is known. -/
def zero : Position := ⟨0, 0⟩

/-- Byte offset of column `col` on the line that follows `skipped` whole lines. A column past the
end of its line stops before the line break, a line past the end of the text at the end. -/
def offsetAfter (col : Nat) : Nat → List Char → Nat
  | 0, cs => min col (byteLength (cs.takeWhile (· ≠ '\n')))
  | skipped + 1, cs =>
    byteLength (cs.takeWhile (· ≠ '\n')) +
      match cs.dropWhile (· ≠ '\n') with
      | [] => 0
      | newline :: rest => newline.utf8Size + offsetAfter col skipped rest

/-- Byte offset of a position inside `text`. -/
def offsetIn (p : Position) (text : String) : Nat :=
  offsetAfter p.col (p.row - 1) text.toList

end Position

namespace TextRange

/-- The all-zero range, used where no text is known. -/
def zero : TextRange := ⟨.zero, .zero⟩

/-- The range from the start of `first` to the end of `last`. -/
def cover (first last : TextRange) : TextRange :=
  ⟨first.start, last.stop⟩

/-- A range as an offset and a length; a range that ends before it starts has length `0`. -/
def spanIn (r : TextRange) (text : String) : Span :=
  ⟨r.start.offsetIn text, r.stop.offsetIn text - r.start.offsetIn text⟩

end TextRange

end GuardedCommand
