import GuardedCommand.Prover.Term
import GuardedCommand.Text.Blank
import Mathlib.Data.List.Basic

/-! # The text of a term

A text is read in two steps. It is cut into parentheses and words, and the words are then collected
in lists: an opening parenthesis begins a list, a closing one ends it and makes it a term of the
list around it. A text may hold any number of terms, and its parentheses have to match.

* `Term.scan`: the parentheses and words of a text.
* `Term.readAll`: the terms of a text, if its parentheses match.
* `Term.Legible`: every atom of a term is a word.
* `Term.readAll_render`: a legible term is the one term that is read from its text.
* `Term.eq_blank_of_isBlank_render`: its text has no white space but blanks, so it is one line.
-/

namespace GuardedCommand

namespace Term

/-! ## Reading -/

/-- What a text is made of. -/
inductive Lexeme where
  /-- The parenthesis that begins a list. -/
  | opening
  /-- The parenthesis that ends a list. -/
  | closing
  /-- Characters between parentheses and white space. -/
  | word (text : String)
  deriving DecidableEq

/-- Whether a character does not belong to a word. -/
def endsWord (c : Char) : Bool :=
  isBlank c || c == '(' || c == ')'

/-- The word of the characters `seen`, last one first, if there are any. -/
def wordOf (seen : List Char) : List Lexeme :=
  if seen.isEmpty then [] else [.word (String.ofList seen.reverse)]

/-- The parenthesis that a character between words is, if it is one. -/
def parenthesis (c : Char) : List Lexeme :=
  if c = '(' then [.opening] else if c = ')' then [.closing] else []

/-- The lexemes of some characters, after those `seen` of the first word, last one first. -/
def scan : List Char → List Char → List Lexeme
  | [], seen => wordOf seen
  | c :: cs, seen =>
    if endsWord c then wordOf seen ++ parenthesis c ++ scan cs [] else scan cs (c :: seen)

/-- The lists that are open, the innermost first; each with its terms, last one first. The outermost
list is the text. -/
abbrev Open := List (List Term)

/-- The open lists after a lexeme. -/
def Open.take : Open → Lexeme → Option Open
  | lists, .opening => .some ([] :: lists)
  | ts :: lists, .word w => .some ((.atom w :: ts) :: lists)
  | ts :: us :: lists, .closing => .some ((.list ts.reverse :: us) :: lists)
  | _, _ => none

/-- The terms of a text; none if a parenthesis is missing. -/
def readAll (text : String) : Option (List Term) := do
  match ← (scan text.toList []).foldlM Open.take [[]] with
  | [ts] => .some ts.reverse
  | _ => none

/-! ## What a term is read from -/

mutual

/-- The texts of the atoms of a term. -/
def atoms : Term → List String
  | .atom text => [text]
  | .list items => atomsAll items

/-- The texts of the atoms of some terms. -/
def atomsAll : List Term → List String
  | [] => []
  | t :: ts => t.atoms ++ atomsAll ts

end

/-- Whether a text is a single word. -/
def IsWord (text : String) : Prop :=
  text.toList ≠ [] ∧ ∀ c ∈ text.toList, endsWord c = false

/-- Every atom of a term is a word. -/
def Legible (t : Term) : Prop :=
  ∀ text ∈ t.atoms, IsWord text

/-- Every atom of some terms is a word. -/
def LegibleAll (ts : List Term) : Prop :=
  ∀ text ∈ atomsAll ts, IsWord text

mutual

/-- The lexemes of the text of a term. -/
def lexemes : Term → List Lexeme
  | .atom text => [.word text]
  | .list items => .opening :: (lexemesAll items ++ [.closing])

/-- The lexemes of the text of some terms. -/
def lexemesAll : List Term → List Lexeme
  | [] => []
  | t :: ts => t.lexemes ++ lexemesAll ts

end

/-- An atom can be read if it is a word. -/
@[simp] theorem legible_atom {text : String} : (Term.atom text).Legible ↔ IsWord text := by
  rw [Legible, atoms]
  exact List.forall_mem_singleton

/-- A list can be read if its items can. -/
@[simp] theorem legible_list {items : List Term} :
    (Term.list items).Legible ↔ LegibleAll items := by
  rw [Legible, atoms]
  exact Iff.rfl

/-- An empty list of items can be read. -/
@[simp] theorem legibleAll_nil : LegibleAll [] := by
  intro text h
  rw [atomsAll] at h
  cases h

/-- Items can be read if the first one and the others can. -/
@[simp] theorem legibleAll_cons {t : Term} {ts : List Term} :
    LegibleAll (t :: ts) ↔ t.Legible ∧ LegibleAll ts := by
  rw [LegibleAll, atomsAll]
  exact List.forall_mem_append

/-- An application can be read if its head is a word and its arguments can. -/
@[simp] theorem legible_apply {head : String} {args : List Term} :
    (apply head args).Legible ↔ IsWord head ∧ LegibleAll args := by
  rw [apply, legible_list, legibleAll_cons, legible_atom]

/-! ## Cutting a text into lexemes -/

/-- The characters of a word are seen one after the other. -/
theorem scan_append_of_word {cs : List Char} (h : ∀ c ∈ cs, endsWord c = false)
    (rest seen : List Char) : scan (cs ++ rest) seen = scan rest (cs.reverse ++ seen) := by
  induction cs generalizing seen with
  | nil => rfl
  | cons c cs ih =>
    have hc : ¬ endsWord c = true := by simp [h c List.mem_cons_self]
    have hcs : ∀ d ∈ cs, endsWord d = false := fun d hd => h d (List.mem_cons_of_mem c hd)
    rw [List.cons_append, scan, if_neg hc, ih hcs, List.reverse_cons, List.append_assoc,
      List.singleton_append]

/-- Characters before which a word ends: none at all, or a first one that does not belong to it. -/
def Stops (rest : List Char) : Prop :=
  ∀ c ∈ rest.head?, endsWord c = true

/-- At the end of the text a word ends. -/
theorem stops_nil : Stops [] := by
  simp [Stops]

/-- Before a parenthesis or a blank a word ends. -/
theorem stops_cons {c : Char} (h : endsWord c = true) (cs : List Char) : Stops (c :: cs) := by
  simpa [Stops] using h

/-- A word ends where the next character does not belong to it. -/
theorem scan_of_stops {rest : List Char} (h : Stops rest) (seen : List Char) :
    scan rest seen = wordOf seen ++ scan rest [] := by
  have hnil : wordOf [] = [] := rfl
  cases rest with
  | nil => rw [scan, scan, hnil, List.append_nil]
  | cons c cs =>
    have hc : endsWord c = true := h c rfl
    rw [scan, scan, if_pos hc, if_pos hc, hnil, List.nil_append, List.append_assoc]

/-- A parenthesis or a blank between words is a lexeme of its own, or none. -/
theorem scan_cons_of_endsWord {c : Char} (h : endsWord c = true) (cs : List Char) :
    scan (c :: cs) [] = parenthesis c ++ scan cs [] := by
  rw [scan, if_pos h]
  rfl

/-- A word is scanned as one token. -/
theorem scan_atom {text : String} (h : IsWord text) {rest : List Char} (hrest : Stops rest) :
    scan (text.toList ++ rest) [] = .word text :: scan rest [] := by
  have hne : text.toList.reverse.isEmpty = false := by
    rw [List.isEmpty_reverse]
    exact List.isEmpty_eq_false_iff.mpr h.1
  have hword : wordOf text.toList.reverse = [.word text] := by
    rw [wordOf, hne, List.reverse_reverse, String.ofList_toList]
    rfl
  rw [scan_append_of_word h.2, List.append_nil, scan_of_stops hrest, hword, List.singleton_append]

/-- A list of at least two terms is written with a blank after the first. -/
theorem toList_renderItems_cons (t u : Term) (ts : List Term) :
    (renderItems (t :: u :: ts)).toList =
      t.render.toList ++ ' ' :: (renderItems (u :: ts)).toList := by
  simp only [renderItems, String.toList_append, List.append_assoc]
  rfl

/-- The characters of a list are those of its items in parentheses. -/
theorem toList_render_list (items : List Term) :
    (Term.list items).render.toList = '(' :: ((renderItems items).toList ++ [')']) := by
  simp only [render, String.toList_append]
  rfl

mutual

/-- The text of a legible term is cut into the lexemes of the term, whatever follows it. -/
theorem scan_render :
    ∀ (t : Term), t.Legible → ∀ {rest : List Char}, Stops rest →
      scan (t.render.toList ++ rest) [] = t.lexemes ++ scan rest []
  | .atom text, h, rest, hrest => by
    rw [render, lexemes, List.singleton_append]
    exact scan_atom (legible_atom.mp h) hrest
  | .list items, h, rest, _ => by
    have hstops : Stops (')' :: rest) := stops_cons (by decide) rest
    rw [toList_render_list, List.cons_append, List.append_assoc, List.singleton_append,
      scan_cons_of_endsWord (by decide), scan_renderItems items (legible_list.mp h) hstops,
      scan_cons_of_endsWord (by decide), lexemes, List.cons_append, List.append_assoc]
    rfl

/-- The text of legible terms is cut into the lexemes of the terms, whatever follows it. -/
theorem scan_renderItems :
    ∀ (ts : List Term), LegibleAll ts → ∀ {rest : List Char}, Stops rest →
      scan ((renderItems ts).toList ++ rest) [] = lexemesAll ts ++ scan rest []
  | [], _, rest, _ => by
    rw [renderItems, lexemesAll]
    rfl
  | [t], h, rest, hrest => by
    rw [renderItems, lexemesAll, lexemesAll, List.append_nil]
    exact scan_render t (legibleAll_cons.mp h).1 hrest
  | t :: u :: ts, h, rest, hrest => by
    obtain ⟨ht, hts⟩ := legibleAll_cons.mp h
    have hstops : Stops (' ' :: ((renderItems (u :: ts)).toList ++ rest)) :=
      stops_cons (by decide) _
    have hcons : lexemesAll (t :: u :: ts) = t.lexemes ++ lexemesAll (u :: ts) := by
      rw [lexemesAll]
    rw [toList_renderItems_cons, List.append_assoc, List.cons_append, scan_render t ht hstops,
      scan_cons_of_endsWord (by decide), scan_renderItems (u :: ts) hts hrest, hcons,
      List.append_assoc]
    rfl

end

/-! ## Collecting words in lists -/

mutual

/-- The lexemes of a term add the term to the innermost open list. -/
theorem foldlM_lexemes :
    ∀ (t : Term) (ls : List Lexeme) (ts : List Term) (lists : Open),
      (t.lexemes ++ ls).foldlM Open.take (ts :: lists) = ls.foldlM Open.take ((t :: ts) :: lists)
  | .atom text, ls, ts, lists => by
    rw [lexemes, List.singleton_append, List.foldlM_cons]
    rfl
  | .list items, ls, ts, lists => by
    rw [lexemes, List.cons_append, List.append_assoc, List.foldlM_cons]
    show (lexemesAll items ++ ([Lexeme.closing] ++ ls)).foldlM Open.take ([] :: ts :: lists) = _
    rw [foldlM_lexemesAll items, List.append_nil, List.singleton_append, List.foldlM_cons]
    show ls.foldlM Open.take ((.list items.reverse.reverse :: ts) :: lists) = _
    rw [List.reverse_reverse]

/-- The lexemes of some terms add the terms to the innermost open list. -/
theorem foldlM_lexemesAll :
    ∀ (us : List Term) (ls : List Lexeme) (ts : List Term) (lists : Open),
      (lexemesAll us ++ ls).foldlM Open.take (ts :: lists) =
        ls.foldlM Open.take ((us.reverse ++ ts) :: lists)
  | [], ls, ts, lists => by
    rw [lexemesAll]
    rfl
  | u :: us, ls, ts, lists => by
    rw [lexemesAll, List.append_assoc, foldlM_lexemes u, foldlM_lexemesAll us, List.reverse_cons,
      List.append_assoc, List.singleton_append]

end

/-! ## Reading what was written -/

/-- The text of a legible term holds that term and no other. -/
theorem readAll_render {t : Term} (h : t.Legible) : readAll t.render = .some [t] := by
  have hscan : scan t.render.toList [] = t.lexemes ++ [] := by
    have := scan_render t h stops_nil
    rwa [List.append_nil] at this
  rw [readAll, hscan, foldlM_lexemes]
  rfl

mutual

/-- The text of a legible term has no white space but blanks. -/
theorem eq_blank_of_isBlank_render :
    ∀ (t : Term), t.Legible → ∀ c ∈ t.render.toList, isBlank c = true → c = ' '
  | .atom text, h, c, hc, hblank => by
    have hends := (legible_atom.mp h).2 c hc
    simp [endsWord, hblank] at hends
  | .list items, h, c, hc, hblank => by
    rw [toList_render_list, List.mem_cons, List.mem_append, List.mem_singleton] at hc
    rcases hc with rfl | hc | rfl
    · exact absurd hblank (by decide)
    · exact eq_blank_of_isBlank_renderItems items (legible_list.mp h) c hc hblank
    · exact absurd hblank (by decide)

/-- The text of legible terms has no white space but blanks. -/
theorem eq_blank_of_isBlank_renderItems :
    ∀ (ts : List Term), LegibleAll ts →
      ∀ c ∈ (renderItems ts).toList, isBlank c = true → c = ' '
  | [], _, c, hc, _ => by
    rw [renderItems] at hc
    cases hc
  | [t], h, c, hc, hblank => by
    rw [renderItems] at hc
    exact eq_blank_of_isBlank_render t (legibleAll_cons.mp h).1 c hc hblank
  | t :: u :: ts, h, c, hc, hblank => by
    obtain ⟨ht, hts⟩ := legibleAll_cons.mp h
    rw [toList_renderItems_cons, List.mem_append, List.mem_cons] at hc
    rcases hc with hc | rfl | hc
    · exact eq_blank_of_isBlank_render t ht c hc hblank
    · rfl
    · exact eq_blank_of_isBlank_renderItems (u :: ts) hts c hc hblank

end

end Term

end GuardedCommand
