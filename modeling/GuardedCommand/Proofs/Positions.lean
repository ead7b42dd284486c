import GuardedCommand.Proofs.Attribution
import Mathlib.Data.List.TakeWhile

/-! # Positions and byte offsets

A place in a text is given by a row and a column, or by the number of bytes before it. An offset
inside a line, or at the end of one, is the offset of exactly the position that is found by counting
line feeds. All other positions are moved to such a place, and their order is kept.

* `Position.ofOffset`: the line of an offset and the column on it, found by counting bytes.
* `Position.offsetAfter_line`, `Position.offsetAfter_skip`: the two steps from line to line.
* `Position.offsetAfter_le`, `Position.offsetAfter_mono`, `Position.offsetAfter_ofOffset`: bounds,
  order and agreement, by induction on the lines of the text.
* `TextRange.offsets_agree`: the statement for texts, positions and ranges.
-/

namespace GuardedCommand

/-! ## Bytes of a text -/

/-- The byte that ends a line. -/
def lineFeed : UInt8 := 10

/-- The bytes of some characters. -/
def encode (cs : List Char) : List UInt8 :=
  cs.flatMap String.utf8EncodeChar

/-- The bytes of two texts, one after the other. -/
theorem encode_append (cs ds : List Char) : encode (cs ++ ds) = encode cs ++ encode ds :=
  List.flatMap_append

/-- A line feed is one byte. -/
theorem encode_lineFeed_cons (cs : List Char) : encode ('\n' :: cs) = lineFeed :: encode cs := by
  rw [encode, List.flatMap_cons]
  rfl

/-- The length in bytes is the number of bytes. -/
theorem length_encode (cs : List Char) : (encode cs).length = byteLength cs := by
  induction cs with
  | nil => rfl
  | cons c cs ih =>
    rw [encode, List.flatMap_cons, List.length_append, String.length_utf8EncodeChar,
      byteLength_cons]
    exact congrArg _ ih

/-- The bytes of a string are those of its characters. -/
theorem data_toUTF8 (text : String) : text.toUTF8.data.toList = encode text.toList := by
  have hbytes : text.toUTF8 = text.toList.utf8Encode := by
    rw [← String.toByteArray_ofList, String.ofList_toList]
    rfl
  rw [hbytes, List.utf8Encode, List.toList_data_toByteArray]
  rfl

/-- The size of a string is the length of its characters in bytes. -/
theorem utf8ByteSize_eq_byteLength (text : String) :
    text.utf8ByteSize = byteLength text.toList := by
  rw [← length_encode, ← data_toUTF8, Array.length_toList]
  rfl

/-- Only the line feed has its byte: a character beyond ASCII is encoded by bytes from `128` on. -/
theorem lineFeed_notMem_utf8EncodeChar {c : Char} (hc : c ≠ '\n') :
    lineFeed ∉ String.utf8EncodeChar c := by
  have hcode : c.val.toNat ≠ 10 := fun h => hc (Char.ext (UInt32.toNat_inj.mp h))
  have hbyte : ∀ n, n % 256 ≠ 10 → lineFeed ≠ UInt8.ofNat n := by
    intro n hn heq
    have htoNat := congrArg UInt8.toNat heq
    rw [UInt8.toNat_ofNat'] at htoNat
    exact hn htoNat.symm
  intro hmem
  rw [String.utf8EncodeChar] at hmem
  split_ifs at hmem <;> simp only [List.mem_cons, List.not_mem_nil, or_false] at hmem
  · exact hbyte _ (by omega) hmem
  · rcases hmem with h | h <;> exact hbyte _ (by omega) h
  · rcases hmem with h | h | h <;> exact hbyte _ (by omega) h
  · rcases hmem with h | h | h | h <;> exact hbyte _ (by omega) h

/-- A line without line feeds has no byte that is one. -/
theorem lineFeed_notMem_encode {line : List Char} (hline : '\n' ∉ line) :
    lineFeed ∉ encode line := by
  intro hmem
  obtain ⟨c, hc, hbyte⟩ := List.mem_flatMap.mp hmem
  refine lineFeed_notMem_utf8EncodeChar ?_ hbyte
  rintro rfl
  exact hline hc

namespace Position

/-! ## Offsets of positions, line by line -/

variable {line rest : List Char}

/-- A line ends at the first line feed. -/
theorem takeWhile_line (hline : '\n' ∉ line) (rest : List Char) :
    (line ++ '\n' :: rest).takeWhile (· ≠ '\n') = line := by
  rw [List.takeWhile_append_of_pos fun c hc => by simpa using ne_of_mem_of_not_mem hc hline,
    List.takeWhile_cons_of_neg (by simp), List.append_nil]

/-- After a line comes its line feed. -/
theorem dropWhile_line (hline : '\n' ∉ line) (rest : List Char) :
    (line ++ '\n' :: rest).dropWhile (· ≠ '\n') = '\n' :: rest := by
  rw [List.dropWhile_append_of_pos fun c hc => by simpa using ne_of_mem_of_not_mem hc hline,
    List.dropWhile_cons_of_neg (by simp)]

/-- The length of a line, its line feed and the rest. -/
theorem byteLength_line (line rest : List Char) :
    byteLength (line ++ '\n' :: rest) = byteLength line + 1 + byteLength rest := by
  rw [byteLength_append, byteLength_cons, Nat.add_assoc]
  rfl

/-- On a line that is ended, a column stops before the line feed. -/
theorem offsetAfter_line (hline : '\n' ∉ line) (col : Nat) :
    offsetAfter col 0 (line ++ '\n' :: rest) = min col (byteLength line) := by
  rw [offsetAfter, takeWhile_line hline]

/-- A line that is passed over counts with its line feed. -/
theorem offsetAfter_skip (hline : '\n' ∉ line) (col skipped : Nat) :
    offsetAfter col (skipped + 1) (line ++ '\n' :: rest) =
      byteLength line + 1 + offsetAfter col skipped rest := by
  rw [offsetAfter, takeWhile_line hline, dropWhile_line hline, Nat.add_assoc]
  rfl

/-- On the last line a column stops at the end of the text, where all rows below it are. -/
theorem offsetAfter_lastLine (hline : '\n' ∉ line) (col skipped : Nat) :
    offsetAfter col skipped line =
      if skipped = 0 then min col (byteLength line) else byteLength line := by
  have hall : ∀ c ∈ line, (decide (c ≠ '\n')) = true := fun c hc => by
    simpa using ne_of_mem_of_not_mem hc hline
  cases skipped with
  | zero => rw [offsetAfter, List.takeWhile_eq_self_iff.mpr hall, if_pos rfl]
  | succ skipped =>
    rw [offsetAfter, List.takeWhile_eq_self_iff.mpr hall, List.dropWhile_eq_nil_iff.mpr hall,
      if_neg (Nat.succ_ne_zero skipped)]
    rfl

/-! ## Bounds and order -/

variable {text : List Char} {ls : List (List Char)}

/-- No position is past the end of the text. -/
theorem offsetAfter_le (h : Lined text ls) (col skipped : Nat) :
    offsetAfter col skipped text ≤ byteLength text := by
  induction h generalizing skipped with
  | nil =>
    rw [offsetAfter_lastLine List.not_mem_nil]
    split_ifs <;> omega
  | last _ hline =>
    rw [offsetAfter_lastLine hline]
    split_ifs <;> omega
  | cons hline _ ih =>
    rw [byteLength_line]
    cases skipped with
    | zero =>
      rw [offsetAfter_line hline]
      omega
    | succ skipped =>
      have := ih skipped
      rw [offsetAfter_skip hline]
      omega

/-- A later position has no smaller offset. -/
theorem offsetAfter_mono (h : Lined text ls) {col col' skipped skipped' : Nat}
    (hle : skipped < skipped' ∨ skipped = skipped' ∧ col ≤ col') :
    offsetAfter col skipped text ≤ offsetAfter col' skipped' text := by
  induction h generalizing skipped skipped' with
  | nil =>
    rw [offsetAfter_lastLine List.not_mem_nil, offsetAfter_lastLine List.not_mem_nil]
    split_ifs <;> omega
  | last _ hline =>
    rw [offsetAfter_lastLine hline, offsetAfter_lastLine hline]
    split_ifs <;> omega
  | cons hline _ ih =>
    cases skipped with
    | zero =>
      -- the first line ends before all others begin
      cases skipped' with
      | zero =>
        rw [offsetAfter_line hline, offsetAfter_line hline]
        omega
      | succ skipped' =>
        rw [offsetAfter_line hline, offsetAfter_skip hline]
        omega
    | succ skipped =>
      cases skipped' with
      | zero => omega
      | succ skipped' =>
        have hrest : skipped < skipped' ∨ skipped = skipped' ∧ col ≤ col' := by omega
        have := ih hrest
        rw [offsetAfter_skip hline, offsetAfter_skip hline]
        omega

/-! ## Positions of offsets -/

/-- The position of a byte offset. Its row is one more than the number of line feeds before the
offset, and its column is the number of bytes after the last of them. -/
def ofOffset (bytes : List UInt8) (b : Nat) : Position where
  row := (bytes.take b).count lineFeed + 1
  col := ((bytes.take b).reverse.takeWhile (· ≠ lineFeed)).length

/-- On the first line the column is the offset. -/
theorem ofOffset_line {bytes : List UInt8} (hline : lineFeed ∉ bytes) (after : List UInt8) {b : Nat}
    (hb : b ≤ bytes.length) : ofOffset (bytes ++ after) b = ⟨1, b⟩ := by
  have hbefore : lineFeed ∉ bytes.take b := fun h => hline (List.mem_of_mem_take h)
  have hall : ∀ x ∈ (bytes.take b).reverse, (decide (x ≠ lineFeed)) = true := fun x hx => by
    simpa using ne_of_mem_of_not_mem (List.mem_reverse.mp hx) hbefore
  rw [ofOffset, List.take_append_of_le_length hb, List.count_eq_zero.mpr hbefore,
    List.takeWhile_eq_self_iff.mpr hall, List.length_reverse, List.length_take, Nat.min_eq_left hb]

/-- Past a line feed the rows are counted from there, and the columns do not depend on what was
before. -/
theorem ofOffset_skip {bytes : List UInt8} (hline : lineFeed ∉ bytes) (after : List UInt8)
    (b : Nat) :
    ofOffset (bytes ++ lineFeed :: after) (bytes.length + 1 + b) =
      ⟨(ofOffset after b).row + 1, (ofOffset after b).col⟩ := by
  have htake : (bytes ++ lineFeed :: after).take (bytes.length + 1 + b) =
      bytes ++ lineFeed :: after.take b := by
    rw [Nat.add_assoc, List.take_length_add_append, Nat.add_comm 1 b, List.take_succ_cons]
  have hcol : ∀ xs : List UInt8, (xs ++ lineFeed :: bytes.reverse).takeWhile (· ≠ lineFeed) =
      xs.takeWhile (· ≠ lineFeed) := by
    intro xs
    induction xs with
    | nil => rw [List.nil_append, List.takeWhile_cons_of_neg (by simp), List.takeWhile_nil]
    | cons x xs ih => rw [List.cons_append, List.takeWhile_cons, List.takeWhile_cons, ih]
  rw [ofOffset, htake, List.count_append, List.count_eq_zero.mpr hline, List.count_cons_self,
    Nat.zero_add, List.reverse_append, List.reverse_cons, List.append_assoc, List.singleton_append,
    hcol]
  rfl

/-- The offset of the position of an offset is this offset, also inside a character. -/
theorem offsetAfter_ofOffset (h : Lined text ls) {b : Nat} (hb : b ≤ byteLength text) :
    offsetAfter (ofOffset (encode text) b).col ((ofOffset (encode text) b).row - 1) text = b := by
  -- a text without line feeds, empty or not
  have hlast : ∀ {line : List Char} {b : Nat}, '\n' ∉ line → b ≤ byteLength line →
      offsetAfter (ofOffset (encode line) b).col ((ofOffset (encode line) b).row - 1) line = b := by
    intro line b hline hb
    have hpos := ofOffset_line (lineFeed_notMem_encode hline) [] (b := b) (by rwa [length_encode])
    rw [List.append_nil] at hpos
    rw [hpos, offsetAfter_lastLine hline, if_pos (Nat.sub_self 1)]
    exact Nat.min_eq_left hb
  induction h generalizing b with
  | nil => exact hlast List.not_mem_nil hb
  | last _ hline => exact hlast hline hb
  | @cons line rest _ hline _ ih =>
    have hnone := lineFeed_notMem_encode hline
    rw [encode_append, encode_lineFeed_cons]
    rw [byteLength_line] at hb
    by_cases hfirst : b ≤ byteLength line
    · rw [ofOffset_line hnone _ (by rwa [length_encode])]
      exact (offsetAfter_line hline b).trans (Nat.min_eq_left hfirst)
    · -- past the line feed all is counted from there
      obtain ⟨b', rfl⟩ : ∃ b', b = (encode line).length + 1 + b' :=
        ⟨b - (byteLength line + 1), by rw [length_encode]; omega⟩
      have hrest := ih (b := b') (by rw [length_encode] at hb; omega)
      rw [ofOffset_skip hnone]
      have hrow : (ofOffset (encode rest) b').row + 1 - 1 =
          (ofOffset (encode rest) b').row - 1 + 1 := rfl
      rw [hrow, offsetAfter_skip hline, hrest, length_encode]

end Position

/-- Positions and byte offsets agree in every text: no position is past the end, a position that is
not before another one has no smaller offset, the position found by counting the line feeds before
an offset has this offset, and every range lies in the text. -/
theorem TextRange.offsets_agree (text : String) :
    (∀ p : Position, p.offsetIn text ≤ text.utf8ByteSize) ∧
    (∀ p q : Position, 1 ≤ p.row → 1 ≤ q.row →
      p.row < q.row ∨ p.row = q.row ∧ p.col ≤ q.col → p.offsetIn text ≤ q.offsetIn text) ∧
    (∀ b ≤ text.utf8ByteSize, (Position.ofOffset text.toUTF8.data.toList b).offsetIn text = b) ∧
    ∀ r : TextRange, (r.spanIn text).offset + (r.spanIn text).length ≤ text.utf8ByteSize := by
  obtain ⟨ls, hlines⟩ := Lined.exists_of_text text.toList
  have hbound : ∀ p : Position, p.offsetIn text ≤ text.utf8ByteSize := by
    intro p
    rw [utf8ByteSize_eq_byteLength]
    exact Position.offsetAfter_le hlines _ _
  refine ⟨hbound, fun p q hp hq hle => ?_, fun b hb => ?_, fun r => ?_⟩
  · exact Position.offsetAfter_mono hlines (by omega)
  · rw [utf8ByteSize_eq_byteLength] at hb
    rw [data_toUTF8]
    exact Position.offsetAfter_ofOffset hlines hb
  · have hstart := hbound r.start
    have hstop := hbound r.stop
    rw [TextRange.spanIn]
    dsimp only
    omega

/-- An offset inside a character, one after the last line feed, and a column past the end of its
line. -/
theorem TextRange.offsets_agree_in_lines :
    Position.ofOffset "ü\n\nab\n".toUTF8.data.toList 1 = ⟨1, 1⟩ ∧
    Position.offsetIn ⟨1, 1⟩ "ü\n\nab\n" = 1 ∧
    Position.ofOffset "ü\n\nab\n".toUTF8.data.toList 7 = ⟨4, 0⟩ ∧
    Position.offsetIn ⟨4, 0⟩ "ü\n\nab\n" = 7 ∧
    Position.offsetIn ⟨1, 9⟩ "ü\n\nab\n" ≤ Position.offsetIn ⟨2, 0⟩ "ü\n\nab\n" := by
  have hinside : Position.ofOffset "ü\n\nab\n".toUTF8.data.toList 1 = ⟨1, 1⟩ := by decide +kernel
  have hend : Position.ofOffset "ü\n\nab\n".toUTF8.data.toList 7 = ⟨4, 0⟩ := by decide +kernel
  obtain ⟨-, hmono, hoffset, -⟩ := TextRange.offsets_agree "ü\n\nab\n"
  refine ⟨hinside, ?_, hend, ?_, hmono _ _ (by decide) (by decide) (.inl (by decide))⟩
  · rw [← hinside]
    exact hoffset 1 (by decide +kernel)
  · rw [← hend]
    exact hoffset 7 (by decide +kernel)

end GuardedCommand
