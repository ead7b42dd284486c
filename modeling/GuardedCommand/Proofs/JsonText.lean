import GuardedCommand.Json.Printer
import GuardedCommand.Json.Reader
import Mathlib.Data.List.Basic
import Mathlib.Data.List.TakeWhile
import Mathlib.Data.Nat.Init

/-! # Reading JSON that was written

A value on one line is cut into the tokens of the value, and these are read as the value again. This
holds for every value without unreadable parts whose numbers are integers of at most 64 bits;
strings may hold any characters.

* `Json.IsExact`: the values that are written without loss.
* `Json.toTokens`: the tokens of a value.
* `Json.scan_compact`: the text of a value is cut into its tokens, whatever follows.
* `Json.run_toTokens`: the tokens of a value are read as the value, in whatever it stands.
* `Json.parse?_compact`: the two together.
-/

namespace GuardedCommand

/-! ## Decimal digits -/

namespace Decimal

/-- The digits of a number stand for the number. -/
theorem digitsValue_toDigits (n : Nat) : digitsValue (Nat.toDigits 10 n) = n :=
  Nat.ofDigitChars_toDigits (by decide) (by decide)

/-- The digits of a number are digits. -/
theorem isDigit_of_mem_toDigits {n : Nat} {c : Char} (h : c ∈ Nat.toDigits 10 n) :
    c.isDigit = true :=
  Nat.isDigit_of_mem_toDigits (by decide) (by decide) h

/-- A positive number is written without superfluous zeros. -/
theorem head?_toDigits_ne {n : Nat} (hn : 0 < n) : (Nat.toDigits 10 n).head? ≠ some '0' := by
  induction n using Nat.strong_induction_on with
  | _ n ih =>
    by_cases hten : n < 10
    · have hdigit : ∀ m < 10, 0 < m → m.digitChar ≠ '0' := by decide
      rw [Nat.toDigits_of_lt_base hten, List.head?_cons]
      exact fun h => hdigit n hten hn (Option.some.inj h)
    · -- the last digit is not the first one
      have hdiv : 0 < n / 10 := by omega
      rw [Nat.toDigits_of_base_le (by decide) (by omega),
        List.head?_append_of_ne_nil _ Nat.toDigits_ne_nil]
      exact ih (n / 10) (by omega) hdiv

/-- All digits of a number are taken, and nothing is left. -/
theorem takeDigits_toDigits (n : Nat) :
    takeDigits (Nat.toDigits 10 n) = some (Nat.toDigits 10 n, []) := by
  have htake : (Nat.toDigits 10 n).takeWhile Char.isDigit = Nat.toDigits 10 n :=
    List.takeWhile_eq_self_iff.mpr fun _ => isDigit_of_mem_toDigits
  have hdrop : (Nat.toDigits 10 n).dropWhile Char.isDigit = [] :=
    List.dropWhile_eq_nil_iff.mpr fun _ => isDigit_of_mem_toDigits
  unfold takeDigits
  rw [htake, hdrop]
  split
  · next h => exact absurd h Nat.toDigits_ne_nil
  · rfl

/-- The digits of a number are read as a whole number. -/
theorem readUnsigned_toDigits (negative : Bool) (n : Nat) :
    readUnsigned negative (Nat.toDigits 10 n) = some ⟨negative, Nat.toDigits 10 n, none, none⟩ := by
  have hzeros : ¬ (1 < (Nat.toDigits 10 n).length ∧ (Nat.toDigits 10 n).head? = some '0') := by
    rintro ⟨hlength, hhead⟩
    rcases Nat.eq_zero_or_pos n with rfl | hn
    · revert hlength
      decide
    · exact head?_toDigits_ne hn hhead
  unfold readUnsigned
  rw [takeDigits_toDigits, Option.bind_eq_bind, Option.bind_some]
  exact if_neg hzeros

/-- A natural number is read as it is written. -/
theorem read_toDigits (n : Nat) :
    read (Nat.toDigits 10 n) = some ⟨false, Nat.toDigits 10 n, none, none⟩ := by
  unfold read
  split
  · next rest h =>
    have hdigit : Char.isDigit '-' = true :=
      isDigit_of_mem_toDigits (n := n) (h ▸ List.mem_cons_self)
    exact absurd hdigit (by decide)
  · exact readUnsigned_toDigits false n

/-- A negative number is read as it is written. -/
theorem read_minus_toDigits (n : Nat) :
    read ('-' :: Nat.toDigits 10 n) = some ⟨true, Nat.toDigits 10 n, none, none⟩ :=
  readUnsigned_toDigits true n

end Decimal

namespace Json

/-! ## Values that are written without loss -/

mutual

/-- All numbers are integers of at most 64 bits, and nothing is unreadable. -/
def IsExact : Json → Prop
  | .null | .bool _ | .str _ => True
  | .num (.int i) => -Nat.pow 2 63 ≤ i ∧ i < Nat.pow 2 64
  | .num (.real _) => False
  | .arr items => IsExactItems items
  | .obj fields => IsExactFields fields
  | .unreadable => False

/-- All items are written without loss. -/
def IsExactItems : List Json → Prop
  | [] => True
  | j :: js => j.IsExact ∧ IsExactItems js

/-- All fields are written without loss. -/
def IsExactFields : List (String × Json) → Prop
  | [] => True
  | (_, j) :: fields => j.IsExact ∧ IsExactFields fields

end

mutual

/-- The tokens of a value. Something unreadable has none. -/
def toTokens : Json → List Token
  | .null => [.atom .null]
  | .bool b => [.atom (.bool b)]
  | .num n => [.atom (.num n)]
  | .str s => [.text s]
  | .arr items => .beginArray :: (itemTokens items ++ [.endArray])
  | .obj fields => .beginObject :: (fieldTokens fields ++ [.endObject])
  | .unreadable => []

/-- The tokens of the items of an array. -/
def itemTokens : List Json → List Token
  | [] => []
  | [j] => j.toTokens
  | j :: k :: js => j.toTokens ++ .comma :: itemTokens (k :: js)

/-- The tokens of the fields of an object. -/
def fieldTokens : List (String × Json) → List Token
  | [] => []
  | [(name, j)] => .text name :: .colon :: j.toTokens
  | (name, j) :: field :: fields =>
    .text name :: .colon :: (j.toTokens ++ .comma :: fieldTokens (field :: fields))

end

/-! ## Strings -/

/-- A step over one character is a step of the whole scan. -/
theorem scan_of_step {c : Char} {done done' : List Token} {mode mode' : Mode}
    (h : step c done mode = some (mode', done')) (cs : List Char) :
    scan (c :: cs) mode done = scan cs mode' done' := by
  rw [scan, h]

/-- A hexadecimal digit is read as it was written. -/
theorem hexDigit?_hexDigit : ∀ n < 16, hexDigit? (hexDigit n) = some n := by
  decide

/-- An escaped control character is read as the character. -/
theorem scan_code {c : Char} (hc : c.toNat < 0x20) (rest : List Char) (seen : List TextUnit)
    (done : List Token) :
    scan (['\\', 'u', '0', '0', hexDigit (c.toNat / 16), hexDigit (c.toNat % 16)] ++ rest)
      (.string seen) done = scan rest (.string (.char c :: seen)) done := by
  -- the code of a control character has two digits after two zeros
  have hhigh := hexDigit?_hexDigit (c.toNat / 16) (by omega)
  have hlow := hexDigit?_hexDigit (c.toNat % 16) (by omega)
  have hunit : unitOfCode (16 * (16 * 0 + c.toNat / 16) + c.toNat % 16) = .char c := by
    rw [show 16 * (16 * 0 + c.toNat / 16) + c.toNat % 16 = c.toNat by omega, unitOfCode,
      if_neg (by omega), Char.ofNat_toNat]
  have hstep : step (hexDigit (c.toNat / 16)) done (.code seen 0 1) =
      some (.code seen (16 * 0 + c.toNat / 16) 0, done) := by
    rw [step, hhigh]
    rfl
  have hlast : step (hexDigit (c.toNat % 16)) done (.code seen (16 * 0 + c.toNat / 16) 0) =
      some (.string (.char c :: seen), done) := by
    rw [step, hlow, ← hunit]
    rfl
  show scan (hexDigit (c.toNat / 16) :: hexDigit (c.toNat % 16) :: rest) (.code seen 0 1) done = _
  rw [scan_of_step hstep, scan_of_step hlast]

/-- A character is read as it stands in a string. -/
theorem scan_escapeChar (c : Char) (rest : List Char) (seen : List TextUnit) (done : List Token) :
    scan (escapeChar c ++ rest) (.string seen) done =
      scan rest (.string (.char c :: seen)) done := by
  unfold escapeChar
  split_ifs with hquote hbackslash hb ht hn hf hr hcontrol
  · subst hquote
    rfl
  · subst hbackslash
    rfl
  · subst hb
    rfl
  · subst ht
    rfl
  · subst hn
    rfl
  · subst hf
    rfl
  · subst hr
    rfl
  · exact scan_code hcontrol rest seen done
  · -- all other characters stand for themselves
    refine scan_of_step ?_ rest
    rw [step, if_neg hquote, if_neg hbackslash, if_neg hcontrol]

/-- Plain characters are joined to themselves. -/
theorem joinUnits_map_char (cs : List Char) : joinUnits (cs.map .char) = some cs := by
  induction cs with
  | nil => rfl
  | cons c cs ih => rw [List.map_cons, joinUnits, ih, Option.map_some]

/-- Escaped characters are scanned as the characters that they stand for. -/
theorem scan_flatMap_escapeChar (cs rest : List Char) (seen : List TextUnit) (done : List Token) :
    scan (cs.flatMap escapeChar ++ rest) (.string seen) done =
      scan rest (.string ((cs.map .char).reverse ++ seen)) done := by
  induction cs generalizing seen with
  | nil => rfl
  | cons c cs ih =>
    rw [List.flatMap_cons, List.append_assoc, scan_escapeChar, ih, List.map_cons,
      List.reverse_cons, List.append_assoc, List.singleton_append]

/-- A string in quotes is one token, whatever follows it. -/
theorem scan_quote (s : String) (rest : List Char) (done : List Token) :
    scan ((quote s).toList ++ rest) .between done = scan rest .between (.text s :: done) := by
  have htoken : textToken (s.toList.map .char) = .text s := by
    rw [textToken, joinUnits_map_char]
    exact congrArg Token.text String.ofList_toList
  have hend : step '"' done (.string (s.toList.map .char).reverse) =
      some (.between, .text s :: done) := by
    rw [step, if_pos rfl, List.reverse_reverse, htoken]
  rw [quote, String.toList_ofList, List.append_assoc, List.cons_append]
  show scan (s.toList.flatMap escapeChar ++ '"' :: rest) (.string []) done = _
  rw [scan_flatMap_escapeChar, List.append_nil, scan_of_step hend]

/-! ## Literals and numbers -/

/-- Characters before which a literal or a number ends: none at all, or a first one that does not
belong to it. -/
def Stops (rest : List Char) : Prop :=
  ∀ c ∈ rest.head?, isScalarChar c = false

/-- At the end of the text a literal ends. -/
theorem stops_nil : Stops [] := by
  simp [Stops]

/-- Before a character that does not belong to a literal, it ends. -/
theorem stops_cons {c : Char} (h : isScalarChar c = false) (cs : List Char) : Stops (c :: cs) := by
  simpa [Stops] using h

/-- Between tokens, a character of a literal starts one. -/
theorem stepBetween_of_isScalarChar {c : Char} (h : isScalarChar c = true) (done : List Token) :
    stepBetween c done = some (.scalar [c], done) := by
  unfold stepBetween
  split
  -- none of the characters with a meaning of their own belongs to a literal or a number
  case h_12 => exact if_pos h
  all_goals exact absurd h (by decide)

/-- Characters of a literal are scanned as a part of it. -/
theorem scan_scalar {cs : List Char} (h : ∀ c ∈ cs, isScalarChar c = true) (rest seen : List Char)
    (done : List Token) :
    scan (cs ++ rest) (.scalar seen) done = scan rest (.scalar (cs.reverse ++ seen)) done := by
  induction cs generalizing seen with
  | nil => rfl
  | cons c cs ih =>
    have hstep : step c done (.scalar seen) = some (.scalar (c :: seen), done) := by
      rw [step, if_pos (h c List.mem_cons_self)]
    rw [List.cons_append, scan_of_step hstep, ih fun d hd => h d (List.mem_cons_of_mem c hd),
      List.reverse_cons, List.append_assoc, List.singleton_append]

/-- A literal or a number is one token if what follows does not belong to it. -/
theorem scan_of_scalarToken {cs : List Char} {token : Token} (hne : cs ≠ [])
    (h : ∀ c ∈ cs, isScalarChar c = true) (htoken : scalarToken cs = some token)
    {rest : List Char} (hrest : Stops rest) (done : List Token) :
    scan (cs ++ rest) .between done = scan rest .between (token :: done) := by
  cases cs with
  | nil => exact absurd rfl hne
  | cons c cs =>
    have hfirst : step c done .between = some (.scalar [c], done) :=
      stepBetween_of_isScalarChar (h c List.mem_cons_self) done
    have hseen : (cs.reverse ++ [c]).reverse = c :: cs := by simp
    rw [List.cons_append, scan_of_step hfirst,
      scan_scalar fun d hd => h d (List.mem_cons_of_mem c hd)]
    -- the token ends with the text or before a character that is not part of it
    cases rest with
    | nil =>
      have hend : scan [] (.scalar (cs.reverse ++ [c])) done = some (token :: done).reverse := by
        rw [scan, hseen, htoken]
        rfl
      rw [hend, scan]
    | cons d rest =>
      have hd : ¬ isScalarChar d = true := by
        rw [hrest d rfl]
        decide
      have hstep : step d done (.scalar (cs.reverse ++ [c])) = stepBetween d (token :: done) := by
        rw [step, if_neg hd, hseen, htoken]
        rfl
      rw [scan, hstep, scan, step]

/-- A natural number is written as its digits. -/
theorem toList_toString_ofNat (n : Nat) : (toString (n : Int)).toList = Nat.toDigits 10 n :=
  Nat.toList_repr

/-- A negative number is written as a minus sign and the digits of its absolute value. -/
theorem toList_toString_negSucc (n : Nat) :
    (toString (Int.negSucc n)).toList = '-' :: Nat.toDigits 10 (n + 1) := by
  show ("-" ++ (n + 1).repr).toList = _
  rw [String.toList_append, Nat.toList_repr]
  rfl

/-- An integer is written with digits and the minus sign. -/
theorem mem_toList_toString {i : Int} {c : Char} (h : c ∈ (toString i).toList) :
    c.isDigit = true ∨ c = '-' := by
  cases i with
  | ofNat n =>
    rw [Int.ofNat_eq_natCast, toList_toString_ofNat] at h
    exact .inl (Decimal.isDigit_of_mem_toDigits h)
  | negSucc n =>
    rw [toList_toString_negSucc] at h
    rcases List.mem_cons.mp h with h | h
    · exact .inr h
    · exact .inl (Decimal.isDigit_of_mem_toDigits h)

/-- The characters of an integer belong to a literal. -/
theorem isScalarChar_of_mem_toString {i : Int} {c : Char} (h : c ∈ (toString i).toList) :
    isScalarChar c = true := by
  unfold isScalarChar
  rcases mem_toList_toString h with hdigit | rfl
  · rw [Char.isAlphanum, hdigit]
    simp
  · decide

/-- An integer has at least one character. -/
theorem toList_toString_ne_nil (i : Int) : (toString i).toList ≠ [] := by
  cases i with
  | ofNat n =>
    rw [Int.ofNat_eq_natCast, toList_toString_ofNat]
    exact Nat.toDigits_ne_nil
  | negSucc n =>
    rw [toList_toString_negSucc]
    exact List.cons_ne_nil _ _

/-- An integer of at most 64 bits is read as it is written. -/
theorem readNumber_toString {i : Int} (hlow : -Nat.pow 2 63 ≤ i) (hhigh : i < Nat.pow 2 64) :
    readNumber (toString i).toList = some (.num (.int i)) := by
  cases i with
  | ofNat n =>
    rw [Int.ofNat_eq_natCast] at hhigh
    have hint : (⟨false, Nat.toDigits 10 n, none, none⟩ : Decimal).toInt? = some (n : Int) := by
      unfold Decimal.toInt?
      dsimp only
      rw [Decimal.digitsValue_toDigits, if_neg Bool.false_ne_true, if_pos hhigh]
    rw [Int.ofNat_eq_natCast, toList_toString_ofNat, readNumber, Decimal.read_toDigits,
      Option.map_some, hint]
  | negSucc n =>
    have hint : (⟨true, Nat.toDigits 10 (n + 1), none, none⟩ : Decimal).toInt? =
        some (Int.negSucc n) := by
      unfold Decimal.toInt?
      dsimp only
      rw [Decimal.digitsValue_toDigits, if_pos rfl, if_pos (by omega)]
      rfl
    rw [toList_toString_negSucc, readNumber, Decimal.read_minus_toDigits, Option.map_some, hint]

/-- An integer in the range is read as the number that it is. -/
theorem scalarToken_toString {i : Int} (hlow : -Nat.pow 2 63 ≤ i) (hhigh : i < Nat.pow 2 64) :
    scalarToken (toString i).toList = some (.atom (.num (.int i))) := by
  -- a literal has letters, an integer has none
  have hletter : ∀ c ∈ ['n', 't', 'f'], c ∉ (toString i).toList := by
    intro c hc hmem
    rcases mem_toList_toString hmem with hdigit | rfl
    · have hnone : ['n', 't', 'f'].all (fun c => ! c.isDigit) = true := by decide
      have hc' := List.all_eq_true.mp hnone c hc
      rw [hdigit] at hc'
      cases hc'
    · exact absurd hc (by decide)
  have hnull : (toString i).toList ≠ "null".toList := by
    intro h
    exact hletter 'n' (by decide) (h ▸ by decide)
  have htrue : (toString i).toList ≠ "true".toList := by
    intro h
    exact hletter 't' (by decide) (h ▸ by decide)
  have hfalse : (toString i).toList ≠ "false".toList := by
    intro h
    exact hletter 'f' (by decide) (h ▸ by decide)
  rw [scalarToken, if_neg hnull, if_neg htrue, if_neg hfalse, readNumber_toString hlow hhigh,
    Option.map_some]

/-! ## Cutting the text of a value -/

/-- A punctuation mark is a token, whatever follows it. -/
theorem scan_mark {c : Char} {token : Token}
    (h : ∀ done, stepBetween c done = some (.between, token :: done)) (rest : List Char)
    (done : List Token) :
    scan (c :: rest) .between done = scan rest .between (token :: done) := by
  rw [scan, step, h]

/-- The characters of an array. -/
theorem toList_compact_arr (items : List Json) :
    (Json.arr items).compact.toList = '[' :: ((compactItems items).toList ++ [']']) := by
  simp only [compact, String.toList_append]
  rfl

/-- The characters of an object. -/
theorem toList_compact_obj (fields : List (String × Json)) :
    (Json.obj fields).compact.toList = '\x7b' :: ((compactFields fields).toList ++ ['\x7d']) := by
  simp only [compact, String.toList_append]
  rfl

/-- The characters of items: the first one, a comma and the others. -/
theorem toList_compactItems_cons (j k : Json) (js : List Json) :
    (compactItems (j :: k :: js)).toList =
      j.compact.toList ++ ',' :: (compactItems (k :: js)).toList := by
  simp only [compactItems, String.toList_append, List.append_assoc]
  rfl

/-- The characters of one field: its name, a colon and its value. -/
theorem toList_compactFields_singleton (name : String) (j : Json) :
    (compactFields [(name, j)]).toList = (quote name).toList ++ ':' :: j.compact.toList := by
  simp only [compactFields, String.toList_append, List.append_assoc]
  rfl

/-- The characters of fields: the first one, a comma and the others. -/
theorem toList_compactFields_cons (name : String) (j : Json) (field : String × Json)
    (fields : List (String × Json)) :
    (compactFields ((name, j) :: field :: fields)).toList =
      (quote name).toList ++ ':' :: (j.compact.toList ++
        ',' :: (compactFields (field :: fields)).toList) := by
  simp only [compactFields, String.toList_append, List.append_assoc]
  rfl

mutual

/-- The text of a value is cut into the tokens of the value, whatever follows it. -/
theorem scan_compact :
    ∀ (j : Json), j.IsExact → ∀ {rest : List Char}, Stops rest → ∀ done : List Token,
      scan (j.compact.toList ++ rest) .between done =
        scan rest .between (j.toTokens.reverse ++ done)
  | .null, _, rest, hrest, done | .bool true, _, rest, hrest, done
  | .bool false, _, rest, hrest, done => by
    rw [compact, toTokens]
    exact scan_of_scalarToken (by decide) (List.all_eq_true.mp (by decide)) rfl hrest done
  | .num (.int i), h, rest, hrest, done => by
    rw [compact, renderNumber, toTokens]
    rw [IsExact] at h
    exact scan_of_scalarToken (toList_toString_ne_nil i) (fun _ => isScalarChar_of_mem_toString)
      (scalarToken_toString h.1 h.2) hrest done
  | .num (.real text), h, rest, hrest, done => by
    -- not written without loss
    rw [IsExact] at h
    exact absurd h id
  | .str s, _, rest, hrest, done => by
    rw [compact, toTokens]
    exact scan_quote s rest done
  | .arr items, h, rest, hrest, done => by
    rw [IsExact] at h
    -- the last item ends before the bracket, so what follows the array does not matter
    have hstops : Stops (']' :: rest) := stops_cons (by decide) rest
    rw [toList_compact_arr, List.cons_append, List.append_assoc, List.singleton_append,
      scan_mark fun _ => rfl, scan_compactItems items h hstops, scan_mark fun _ => rfl, toTokens]
    simp
  | .obj fields, h, rest, hrest, done => by
    rw [IsExact] at h
    have hstops : Stops ('\x7d' :: rest) := stops_cons (by decide) rest
    rw [toList_compact_obj, List.cons_append, List.append_assoc, List.singleton_append,
      scan_mark fun _ => rfl, scan_compactFields fields h hstops, scan_mark fun _ => rfl, toTokens]
    simp
  | .unreadable, h, rest, hrest, done => by
    rw [IsExact] at h
    exact absurd h id

/-- The text of items is cut into their tokens, whatever follows it. -/
theorem scan_compactItems :
    ∀ (js : List Json), IsExactItems js → ∀ {rest : List Char}, Stops rest →
      ∀ done : List Token,
        scan ((compactItems js).toList ++ rest) .between done =
          scan rest .between ((itemTokens js).reverse ++ done)
  | [], _, rest, _, done => by
    rw [compactItems, itemTokens]
    rfl
  | [j], h, rest, hrest, done => by
    rw [IsExactItems] at h
    rw [compactItems, itemTokens]
    exact scan_compact j h.1 hrest done
  | j :: k :: js, h, rest, hrest, done => by
    rw [IsExactItems] at h
    have hstops : Stops (',' :: ((compactItems (k :: js)).toList ++ rest)) :=
      stops_cons (by decide) _
    rw [toList_compactItems_cons, List.append_assoc, List.cons_append, scan_compact j h.1 hstops,
      scan_mark fun _ => rfl, scan_compactItems (k :: js) h.2 hrest, itemTokens]
    simp

/-- The text of fields is cut into their tokens, whatever follows it. -/
theorem scan_compactFields :
    ∀ (fields : List (String × Json)), IsExactFields fields → ∀ {rest : List Char}, Stops rest →
      ∀ done : List Token,
        scan ((compactFields fields).toList ++ rest) .between done =
          scan rest .between ((fieldTokens fields).reverse ++ done)
  | [], _, rest, _, done => by
    rw [compactFields, fieldTokens]
    rfl
  | [(name, j)], h, rest, hrest, done => by
    rw [IsExactFields] at h
    rw [toList_compactFields_singleton, List.append_assoc, List.cons_append, scan_quote,
      scan_mark fun _ => rfl, scan_compact j h.1 hrest, fieldTokens]
    simp
  | (name, j) :: field :: fields, h, rest, hrest, done => by
    rw [IsExactFields] at h
    have hstops : Stops (',' :: ((compactFields (field :: fields)).toList ++ rest)) :=
      stops_cons (by decide) _
    rw [toList_compactFields_cons, List.append_assoc, List.cons_append, List.append_assoc,
      List.cons_append, scan_quote, scan_mark fun _ => rfl, scan_compact j h.1 hstops,
      scan_mark fun _ => rfl, scan_compactFields (field :: fields) h.2 hrest, fieldTokens]
    simp

end

/-- The text of a value is cut into the tokens of the value. -/
theorem tokens_compact {j : Json} (h : j.IsExact) : tokens j.compact.toList = some j.toTokens := by
  have hscan := scan_compact j h stops_nil []
  rw [List.append_nil, List.append_nil] at hscan
  rw [tokens, hscan, scan, List.reverse_reverse]

/-! ## Reading the tokens of a value -/

/-- Places where a value may start. -/
def Expected.StartsValue : Expected → Prop
  | .value | .firstItem => True
  | _ => False

/-- A step over one token is a step of the whole run. -/
theorem run_of_advance {stack stack' : List Unfinished} {e e' : Expected} {token : Token}
    (h : advance stack e token = some (stack', e')) (rest : List Token) :
    run (token :: rest) stack e = run rest stack' e' := by
  rw [run, h]

/-- Where a value is expected, a token that does not end the array starts one. -/
theorem advance_of_startsValue {e : Expected} (he : e.StartsValue) {token : Token}
    (htoken : token ≠ .endArray) (stack : List Unfinished) :
    advance stack e token = startValue stack token := by
  cases e with
  | value => rfl
  | firstItem =>
    cases token with
    | endArray => exact absurd rfl htoken
    | _ => rfl
  | _ => exact absurd he id

/-- The value of a field is expected after its name and a colon. -/
theorem run_name {e : Expected} (he : e = .firstField ∨ e = .field) (name : String)
    (rest : List Token) (fields : List (String × Json)) (stack : List Unfinished) :
    run (.text name :: .colon :: rest) (.object fields :: stack) e =
      run rest (.member fields name :: stack) .value := by
  rcases he with rfl | rfl <;> rfl

mutual

/-- The tokens of a value are read as the value, wherever a value may start. -/
theorem run_toTokens :
    ∀ (j : Json), j.IsExact → ∀ (rest : List Token) (stack : List Unfinished) {e : Expected},
      e.StartsValue → run (j.toTokens ++ rest) stack e = run rest stack (.after j)
  | .null, _, rest, stack, e, he | .bool _, _, rest, stack, e, he
  | .num _, _, rest, stack, e, he | .str _, _, rest, stack, e, he => by
    -- a single token is a whole value
    rw [toTokens, List.singleton_append]
    exact run_of_advance (advance_of_startsValue he (by simp) stack) rest
  | .arr items, h, rest, stack, e, he => by
    rw [IsExact] at h
    have hstart : advance stack e .beginArray = startValue stack .beginArray :=
      advance_of_startsValue he (by simp) stack
    rw [toTokens, List.cons_append, List.append_assoc, List.singleton_append,
      run_of_advance hstart]
    exact run_itemTokens items h rest stack [] (e := .firstItem) trivial (fun _ => ⟨rfl, rfl⟩)
  | .obj fields, h, rest, stack, e, he => by
    rw [IsExact] at h
    have hstart : advance stack e .beginObject = startValue stack .beginObject :=
      advance_of_startsValue he (by simp) stack
    rw [toTokens, List.cons_append, List.append_assoc, List.singleton_append,
      run_of_advance hstart]
    exact run_fieldTokens fields h rest stack [] (e := .firstField) (.inl rfl)
      (fun _ => ⟨rfl, rfl⟩)
  | .unreadable, h, rest, stack, e, he => by
    rw [IsExact] at h
    exact absurd h id

/-- The tokens of items and the end of the array finish an array that holds some items. Only the
array that has just been opened may get no further items. -/
theorem run_itemTokens :
    ∀ (js : List Json), IsExactItems js → ∀ (rest : List Token) (stack : List Unfinished)
      (done : List Json) {e : Expected}, e.StartsValue → (js = [] → e = .firstItem ∧ done = []) →
      run (itemTokens js ++ .endArray :: rest) (.array done :: stack) e =
        run rest stack (.after (.arr (done.reverse ++ js)))
  | [], _, rest, stack, done, e, _, hnil => by
    obtain ⟨rfl, rfl⟩ := hnil rfl
    rfl
  | [j], h, rest, stack, done, e, he, _ => by
    rw [IsExactItems] at h
    rw [itemTokens, run_toTokens j h.1 _ _ he]
    show run rest stack (.after (.arr (j :: done).reverse)) = _
    rw [List.reverse_cons]
  | j :: k :: js, h, rest, stack, done, e, he, _ => by
    -- the finished items are kept in reverse, and a comma asks for another one
    rw [IsExactItems] at h
    rw [itemTokens, List.append_assoc, List.cons_append, run_toTokens j h.1 _ _ he]
    show run (itemTokens (k :: js) ++ .endArray :: rest) (.array (j :: done) :: stack) .value = _
    rw [run_itemTokens (k :: js) h.2 rest stack (j :: done) (e := .value) trivial (by simp),
      List.reverse_cons, List.append_assoc, List.singleton_append]

/-- The tokens of fields and the end of the object finish an object that holds some fields. Only the
object that has just been opened may get no further fields. -/
theorem run_fieldTokens :
    ∀ (fields : List (String × Json)), IsExactFields fields → ∀ (rest : List Token)
      (stack : List Unfinished) (done : List (String × Json)) {e : Expected},
      e = .firstField ∨ e = .field → (fields = [] → e = .firstField ∧ done = []) →
      run (fieldTokens fields ++ .endObject :: rest) (.object done :: stack) e =
        run rest stack (.after (.obj (done.reverse ++ fields)))
  | [], _, rest, stack, done, e, _, hnil => by
    obtain ⟨rfl, rfl⟩ := hnil rfl
    rfl
  | [(name, j)], h, rest, stack, done, e, he, _ => by
    rw [IsExactFields] at h
    rw [fieldTokens, List.cons_append, List.cons_append, run_name he,
      run_toTokens j h.1 _ _ (e := .value) trivial]
    show run rest stack (.after (.obj ((name, j) :: done).reverse)) = _
    rw [List.reverse_cons]
  | (name, j) :: field :: fields, h, rest, stack, done, e, he, _ => by
    rw [IsExactFields] at h
    rw [fieldTokens, List.cons_append, List.cons_append, List.append_assoc, List.cons_append,
      run_name he, run_toTokens j h.1 _ _ (e := .value) trivial]
    show run (fieldTokens (field :: fields) ++ .endObject :: rest)
      (.object ((name, j) :: done) :: stack) .field = _
    rw [run_fieldTokens (field :: fields) h.2 rest stack ((name, j) :: done) (e := .field)
      (.inr rfl) (by simp), List.reverse_cons, List.append_assoc, List.singleton_append]

end

/-- A value that is written without loss is read as it was written. -/
theorem parse?_compact {j : Json} (h : j.IsExact) : parse? j.compact = some j := by
  have hrun := run_toTokens j h [] [] (e := .value) trivial
  rw [List.append_nil] at hrun
  rw [parse?, tokens_compact h]
  exact hrun

mutual

/-- What is written without loss can be read. -/
theorem IsExact.isComplete : ∀ {j : Json}, j.IsExact → j.isComplete = true
  | .null, _ | .bool _, _ | .num _, _ | .str _, _ => by rw [Json.isComplete] <;> simp
  | .arr items, h => by
    rw [IsExact] at h
    rw [Json.isComplete]
    exact isCompleteItems_of_isExactItems items h
  | .obj fields, h => by
    rw [IsExact] at h
    rw [Json.isComplete]
    exact isCompleteFields_of_isExactFields fields h
  | .unreadable, h => by
    rw [IsExact] at h
    exact absurd h id

/-- Items that are written without loss can be read. -/
theorem isCompleteItems_of_isExactItems :
    ∀ js : List Json, IsExactItems js → isCompleteItems js = true
  | [], _ => by rw [isCompleteItems]
  | j :: js, h => by
    rw [IsExactItems] at h
    rw [isCompleteItems, h.1.isComplete, isCompleteItems_of_isExactItems js h.2]
    rfl

/-- Fields that are written without loss can be read. -/
theorem isCompleteFields_of_isExactFields :
    ∀ fields : List (String × Json), IsExactFields fields → isCompleteFields fields = true
  | [], _ => by rw [isCompleteFields]
  | (_, j) :: fields, h => by
    rw [IsExactFields] at h
    rw [isCompleteFields, h.1.isComplete, isCompleteFields_of_isExactFields fields h.2]
    rfl

end

end Json

end GuardedCommand
