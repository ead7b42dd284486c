import GuardedCommand.Proofs.TermText
import GuardedCommand.Prover.Background

/-! # The text of background definitions

Background definitions are written for people as well as for the prover: a definition is laid out
over several lines, and comments go from a semicolon to the end of the line. The prover reads the
terms that are left.

* `Term.uncomment`, `Term.readDefinitions`: the terms of a text that may have comments.
* `Layout.scan_render`: a layout is cut into the lexemes of its term, wherever its lines end.
* `Background.isPlain`: the atoms of all definitions are words without a semicolon.
* `Background.readDefinitions_text`: from the text of plain definitions the definitions are read.
-/

namespace GuardedCommand

namespace Term

/-! ## Reading -/

/-- The characters outside of comments; `inside` tells whether the first one is in a comment. -/
def uncomment (inside : Bool) : List Char → List Char
  | [] => []
  | c :: cs =>
    if c = '\n' then c :: uncomment false cs
    else if inside || c = ';' then uncomment true cs
    else c :: uncomment false cs

/-- The terms of a text that may have comments; none if a parenthesis is missing. -/
def readDefinitions (text : String) : Option (List Term) :=
  readAll (String.ofList (uncomment false text.toList))

/-- A text that is made up of the lexemes of terms holds these terms. -/
theorem readAll_of_scan {text : String} {ts : List Term}
    (h : scan text.toList [] = lexemesAll ts) : readAll text = .some ts := by
  have hlexemes := foldlM_lexemesAll ts [] [] []
  rw [List.append_nil, List.append_nil] at hlexemes
  rw [readAll, h, hlexemes]
  show Option.some ts.reverse.reverse = _
  rw [List.reverse_reverse]

/-- Whether a text is a word that starts no comment. -/
def isPlainWord (text : String) : Bool :=
  !text.toList.isEmpty && text.toList.all fun c => !endsWord c && c != ';'

/-- A plain word is a word for the prover. -/
theorem isWord_of_isPlainWord {text : String} (h : isPlainWord text = true) : IsWord text := by
  simp only [isPlainWord, Bool.and_eq_true, List.all_eq_true, Bool.not_eq_true'] at h
  exact ⟨List.isEmpty_eq_false_iff.mp h.1, fun c hc => (h.2 c hc).1⟩

/-- A plain word does not start a comment. -/
theorem semicolon_notMem_of_isPlainWord {text : String} (h : isPlainWord text = true) :
    ';' ∉ text.toList := by
  intro hmem
  simp only [isPlainWord, Bool.and_eq_true, List.all_eq_true] at h
  exact absurd (h.2 ';' hmem).2 (by decide)

/-- A comment ends with its line. -/
theorem uncomment_inside {cs : List Char} (h : '\n' ∉ cs) (rest : List Char) :
    uncomment true (cs ++ '\n' :: rest) = '\n' :: uncomment false rest := by
  induction cs with
  | nil => rw [List.nil_append, uncomment, if_pos rfl]
  | cons c cs ih =>
    rw [List.mem_cons, not_or] at h
    rw [List.cons_append, uncomment, if_neg (Ne.symm h.1), Bool.true_or, if_pos rfl, ih h.2]

/-- Without a semicolon there is no comment. -/
theorem uncomment_of_notMem {cs : List Char} (h : ';' ∉ cs) : uncomment false cs = cs := by
  induction cs with
  | nil => rw [uncomment]
  | cons c cs ih =>
    rw [List.mem_cons, not_or] at h
    have hc : ¬ (false || decide (c = ';')) = true := by simpa using Ne.symm h.1
    rw [uncomment, if_neg hc, ih h.2, ite_self]

/-- Blanks and line breaks between words are no lexemes. -/
theorem scan_append_of_blank {blanks : List Char} (h : ∀ c ∈ blanks, c = ' ' ∨ c = '\n')
    (rest : List Char) : scan (blanks ++ rest) [] = scan rest [] := by
  induction blanks with
  | nil => rfl
  | cons c blanks ih =>
    rw [List.forall_mem_cons] at h
    have hc : endsWord c = true ∧ parenthesis c = [] := by
      rcases h.1 with rfl | rfl <;> decide
    rw [List.cons_append, scan_cons_of_endsWord hc.1, hc.2, List.nil_append, ih h.2]

end Term

/-! ## Layouts -/

namespace Layout

open Term

/-- A line break with an indentation is a line break and blanks. -/
theorem toList_indent (n : Nat) : ("\n".pushn ' ' n).toList = '\n' :: List.replicate n ' ' := by
  rw [String.pushn_eq_repeat_push]
  induction n with
  | zero => rfl
  | succ n ih =>
    rw [Nat.repeat, String.toList_push, ih, List.replicate_succ', List.cons_append]

/-- Every further term of a list stands after blanks or on a line of its own. -/
theorem exists_blanks_of_renderRest (t : Layout) (ts : List Layout) :
    ∃ c blanks, (∀ d ∈ c :: blanks, d = ' ' ∨ d = '\n') ∧
      (renderRest (t :: ts)).toList =
        (c :: blanks) ++ (t.render.toList ++ (renderRest ts).toList) := by
  cases t with
  | nextLine n t =>
    refine ⟨'\n', List.replicate n ' ', ?_, ?_⟩
    · intro d hd
      rcases List.mem_cons.mp hd with rfl | hd
      · exact .inr rfl
      · exact .inl (List.eq_of_mem_replicate hd)
    · rw [renderRest, String.toList_append, String.toList_append, toList_indent, render,
        List.append_assoc]
  | atom text | list items =>
    refine ⟨' ', [], by simp, ?_⟩
    simp only [renderRest, String.toList_append, List.append_assoc]
    rfl

/-- Whatever is left of a list, a word before it ends there. -/
theorem stops_renderRest {ts : List Layout} {rest : List Char} (h : Stops rest) :
    Stops ((renderRest ts).toList ++ rest) := by
  cases ts with
  | nil =>
    rw [renderRest]
    exact h
  | cons t ts =>
    obtain ⟨c, blanks, hblanks, heq⟩ := exists_blanks_of_renderRest t ts
    have hc : endsWord c = true := by
      rcases hblanks c List.mem_cons_self with rfl | rfl <;> decide
    rw [heq]
    exact stops_cons hc _

/-- The characters of a list that is not empty. -/
theorem toList_render_cons (t : Layout) (ts : List Layout) :
    (Layout.list (t :: ts)).render.toList =
      '(' :: (t.render.toList ++ ((renderRest ts).toList ++ [')'])) := by
  simp only [render, String.toList_append, List.append_assoc]
  rfl

mutual

/-- The text of a layout is cut into the lexemes of its term, whatever follows it. -/
theorem scan_render :
    ∀ l : Layout, l.toTerm.Legible → ∀ {rest : List Char}, Stops rest →
      scan (l.render.toList ++ rest) [] = l.toTerm.lexemes ++ scan rest []
  | .atom text, h, rest, hrest => by
    rw [toTerm] at h ⊢
    rw [render, lexemes, List.singleton_append]
    exact scan_atom (legible_atom.mp h) hrest
  | .nextLine _ t, h, rest, hrest => by
    rw [toTerm] at h ⊢
    rw [render]
    exact scan_render t h hrest
  | .list [], _, rest, _ => by
    rw [toTerm, toTerms, lexemes, lexemesAll]
    -- Both parentheses end a word, and there is none before either.
    show scan ('(' :: ')' :: rest) [] = _
    rw [scan_cons_of_endsWord (by decide), scan_cons_of_endsWord (by decide)]
    rfl
  | .list (t :: ts), h, rest, _ => by
    rw [toTerm, toTerms] at h ⊢
    obtain ⟨ht, hts⟩ := legibleAll_cons.mp (legible_list.mp h)
    have hclose : Stops (')' :: rest) := stops_cons (by decide) rest
    have hcons : lexemesAll (t.toTerm :: toTerms ts) =
        t.toTerm.lexemes ++ lexemesAll (toTerms ts) := by rw [lexemesAll]
    rw [toList_render_cons, List.cons_append, List.append_assoc, List.append_assoc,
      List.singleton_append, scan_cons_of_endsWord (by decide),
      scan_render t ht (stops_renderRest hclose), scan_renderRest ts hts hclose,
      scan_cons_of_endsWord (by decide), lexemes, hcons, List.cons_append, List.append_assoc,
      List.append_assoc]
    rfl

/-- The text of the further terms of a list is cut into their lexemes, whatever follows it. -/
theorem scan_renderRest :
    ∀ ts : List Layout, LegibleAll (toTerms ts) → ∀ {rest : List Char}, Stops rest →
      scan ((renderRest ts).toList ++ rest) [] = lexemesAll (toTerms ts) ++ scan rest []
  | [], _, rest, _ => by
    rw [renderRest, toTerms, lexemesAll]
    rfl
  | t :: ts, h, rest, hrest => by
    rw [toTerms] at h ⊢
    obtain ⟨ht, hts⟩ := legibleAll_cons.mp h
    obtain ⟨c, blanks, hblanks, heq⟩ := exists_blanks_of_renderRest t ts
    rw [heq, List.append_assoc, List.append_assoc, scan_append_of_blank hblanks,
      scan_render t ht (stops_renderRest hrest), scan_renderRest ts hts hrest, lexemesAll,
      List.append_assoc]

end

mutual

/-- A layout whose atoms start no comment has no semicolon. -/
theorem semicolon_notMem_render :
    ∀ l : Layout, (∀ text ∈ l.toTerm.atoms, ';' ∉ text.toList) → ';' ∉ l.render.toList
  | .atom text, h => by
    rw [toTerm, atoms] at h
    rw [render]
    exact h text List.mem_cons_self
  | .nextLine _ t, h => by
    rw [toTerm] at h
    rw [render]
    exact semicolon_notMem_render t h
  | .list [], _ => by
    show ';' ∉ ['(', ')']
    decide
  | .list (t :: ts), h => by
    rw [toTerm, toTerms, atoms, atomsAll, List.forall_mem_append] at h
    have ht := semicolon_notMem_render t h.1
    have hts := semicolon_notMem_renderRest ts h.2
    rw [toList_render_cons]
    simp [ht, hts]

/-- Further terms of a list whose atoms start no comment have no semicolon. -/
theorem semicolon_notMem_renderRest :
    ∀ ts : List Layout, (∀ text ∈ atomsAll (toTerms ts), ';' ∉ text.toList) →
      ';' ∉ (renderRest ts).toList
  | [], _ => by
    rw [renderRest]
    decide
  | t :: ts, h => by
    rw [toTerms, atomsAll, List.forall_mem_append] at h
    have ht := semicolon_notMem_render t h.1
    have hts := semicolon_notMem_renderRest ts h.2
    obtain ⟨c, blanks, hblanks, heq⟩ := exists_blanks_of_renderRest t ts
    have hc : ';' ∉ c :: blanks := by
      intro hmem
      rcases hblanks _ hmem with heq | heq <;> exact absurd heq (by decide)
    rw [heq, List.mem_append, List.mem_append, not_or, not_or]
    exact ⟨hc, ht, hts⟩

end

end Layout

/-! ## Background definitions -/

namespace Background

open Term

/-- The definitions as terms. -/
def terms (b : Background) : List Term :=
  b.declarations.map fun d => d.layout.toTerm

/-- Whether the comment is one line and all atoms are words that start no comment. -/
def isPlain (b : Background) : Bool :=
  b.comment.toList.all (· != '\n') && b.terms.all fun t => t.atoms.all isPlainWord

/-- Definitions one below the other are cut into their lexemes. -/
theorem scan_declarations :
    ∀ ds : List Declaration, (∀ d ∈ ds, d.layout.toTerm.Legible) →
      scan (String.join (ds.map fun d => d.layout.render ++ "\n")).toList [] =
        lexemesAll (ds.map fun d => d.layout.toTerm)
  | [], _ => rfl
  | d :: ds, h => by
    rw [List.forall_mem_cons] at h
    have hbreak : Stops ('\n' :: (String.join (ds.map fun d => d.layout.render ++ "\n")).toList) :=
      stops_cons (by decide) _
    have hnewline : "\n".toList = ['\n'] := rfl
    rw [List.map_cons, List.map_cons, String.join_cons, String.toList_append,
      String.toList_append, List.append_assoc, hnewline, List.singleton_append,
      Layout.scan_render _ h.1 hbreak, scan_cons_of_endsWord (by decide), scan_declarations ds h.2,
      lexemesAll]
    rfl

/-- Declarations without semicolons in their words have none in their text. -/
theorem semicolon_notMem_declarations {ds : List Declaration}
    (h : ∀ d ∈ ds, ∀ text ∈ d.layout.toTerm.atoms, ';' ∉ text.toList) :
    ';' ∉ (String.join (ds.map fun d => d.layout.render ++ "\n")).toList := by
  rw [String.toList_join]
  intro hmem
  obtain ⟨text, htext, hc⟩ := List.mem_flatMap.mp hmem
  obtain ⟨d, hd, rfl⟩ := List.mem_map.mp htext
  rw [String.toList_append, List.mem_append] at hc
  rcases hc with hc | hc
  · exact Layout.semicolon_notMem_render _ (h d hd) hc
  · exact absurd hc (by decide)

/-- From the text of plain definitions the prover reads the definitions. -/
theorem readDefinitions_text {b : Background} (h : b.isPlain = true) :
    readDefinitions b.text = .some b.terms := by
  simp only [isPlain, terms, Bool.and_eq_true, List.all_eq_true, List.forall_mem_map, bne_iff_ne]
    at h
  obtain ⟨hcomment, hatoms⟩ := h
  have hline : '\n' ∉ ' ' :: b.comment.toList := by
    rw [List.mem_cons, not_or]
    exact ⟨by decide, fun hmem => hcomment _ hmem rfl⟩
  have hplain := semicolon_notMem_declarations
    fun d hd text ht => semicolon_notMem_of_isPlainWord (hatoms d hd text ht)
  have hscan := scan_declarations b.declarations
    fun d hd text ht => isWord_of_isPlainWord (hatoms d hd text ht)
  -- the comment line leaves its line break
  have huncomment : uncomment false b.text.toList =
      '\n' :: (String.join (b.declarations.map fun d => d.layout.render ++ "\n")).toList := by
    have hnewline : "\n".toList = ['\n'] := rfl
    simp only [text, String.toList_append, List.append_assoc, hnewline, List.singleton_append]
    show uncomment false (';' :: ((' ' :: b.comment.toList) ++ '\n' :: _)) = _
    rw [uncomment, if_neg (by decide), if_pos (by decide), uncomment_inside hline,
      uncomment_of_notMem hplain]
  rw [readDefinitions, huncomment]
  refine readAll_of_scan ?_
  rw [String.toList_ofList, scan_cons_of_endsWord (by decide), hscan]
  rfl

end Background

end GuardedCommand
