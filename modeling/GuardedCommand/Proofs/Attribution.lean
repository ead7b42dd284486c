import GuardedCommand.CommandLine.Run
import GuardedCommand.Proofs.Interchange
import GuardedCommand.Proofs.Shorthands
import Mathlib.Data.List.DropRight

/-! # Attribution of verdicts

The prover gets one formula for each obligation and answers in lines of text, some of which are
verdicts. Which verdict belongs to which obligation is a matter of counting, and nothing else: the
lists have to be of the same length, or no verdict counts.

* `Lined`, `ProverConfig.Gives`: what the lines of a text are, and what a line says.
* `ProverConfig.forall₂_verdicts`: the verdicts are those of the verdict lines, in their order.
* `Batch.Attributes`: a result in which each obligation has the verdict at its position.
* `Task.IsReadable`: a task without syntax errors.
* `Task.attributes_of_verify`: how the verification of a task ends, for every run of the prover.
-/

namespace GuardedCommand

/-! ## Lines -/

/-- The lines of a text: each is ended by a line feed, except for the last, which is one only if it
is not empty. -/
inductive Lined : List Char → List (List Char) → Prop where
  | nil : Lined [] []
  | last {line : List Char} : line ≠ [] → '\n' ∉ line → Lined line [line]
  | cons {line rest : List Char} {ls : List (List Char)} :
    '\n' ∉ line → Lined rest ls → Lined (line ++ '\n' :: rest) (line :: ls)

/-- A carriage return at the end of a line is one of the blanks there. -/
theorem rdropWhile_dropReturn (seen : List Char) :
    (dropReturn seen).reverse.rdropWhile isBlank = seen.reverse.rdropWhile isBlank := by
  cases seen with
  | nil => rfl
  | cons c seen =>
    by_cases hc : c = '\r'
    · subst hc
      rw [List.reverse_cons, List.rdropWhile_concat_pos isBlank seen.reverse '\r' rfl]
      rfl
    · have hkeep : dropReturn (c :: seen) = c :: seen := by
        rw [dropReturn]
        intro _ heq
        cases heq
        exact hc rfl
      rw [hkeep]

/-- Characters without a line feed are a part of the line that follows. -/
theorem splitLines_append {line : List Char} (hline : '\n' ∉ line) (cs seen : List Char) :
    splitLines (line ++ cs) seen = splitLines cs (line.reverse ++ seen) := by
  induction line generalizing seen with
  | nil => rfl
  | cons c line ih =>
    obtain ⟨hc, hline⟩ := List.ne_and_not_mem_of_not_mem_cons hline
    rw [List.cons_append, splitLines, ih hline, List.reverse_cons, List.append_assoc,
      List.singleton_append]
    exact fun h => hc h.symm

namespace Lined

/-- Every text has its lines. -/
theorem exists_of_text (text : List Char) : ∃ ls, Lined text ls := by
  induction text with
  | nil => exact ⟨[], .nil⟩
  | cons c text ih =>
    by_cases hc : c = '\n'
    · subst hc
      obtain ⟨ls, hls⟩ := ih
      exact ⟨[] :: ls, .cons List.not_mem_nil hls⟩
    · -- the character is the first one of the first line of the rest
      have hcons : ∀ {line : List Char}, '\n' ∉ line → '\n' ∉ c :: line := fun hline =>
        List.not_mem_cons_of_ne_of_not_mem (fun h => hc h.symm) hline
      obtain ⟨ls, hls⟩ := ih
      cases hls with
      | nil => exact ⟨[[c]], .last (List.cons_ne_nil c []) (hcons List.not_mem_nil)⟩
      | last _ hline => exact ⟨_, .last (List.cons_ne_nil c _) (hcons hline)⟩
      | cons hline hrest => exact ⟨_, .cons (hcons hline) hrest⟩

/-- A text is split into its lines, up to blanks at their ends. -/
theorem forall₂_splitLines {text : List Char} {ls : List (List Char)} (h : Lined text ls) :
    List.Forall₂ (fun l m => m.rdropWhile isBlank = l.rdropWhile isBlank) ls
      (splitLines text []) := by
  induction h with
  | nil => exact .nil
  | @last line hne hline =>
    have hsplit : splitLines line [] = [line] := by
      have happend := splitLines_append hline [] []
      rw [List.append_nil, List.append_nil] at happend
      rw [happend, splitLines, List.reverse_reverse]
      exact fun h => hne (List.reverse_eq_nil_iff.mp h)
    rw [hsplit]
    exact .cons rfl .nil
  | @cons line rest ls hline _ ih =>
    rw [splitLines_append hline, List.append_nil, splitLines]
    have hreturn := rdropWhile_dropReturn line.reverse
    rw [List.reverse_reverse] at hreturn
    exact .cons hreturn ih

end Lined

/-! ## Verdicts -/

/-- Of two ends of one text the longer one has more bytes. -/
theorem byteLength_lt_iff_of_suffix {cs ds text : List Char} (hcs : cs <:+ text)
    (hds : ds <:+ text) : byteLength cs < byteLength ds ↔ cs.length < ds.length := by
  have hpos : ∀ es : List Char, 0 < byteLength es ↔ 0 < es.length := by
    intro es
    cases es with
    | nil => simp
    | cons c es =>
      have hc := c.utf8Size_pos
      simp only [byteLength_cons, List.length_cons]
      omega
  rcases List.suffix_or_suffix_of_suffix hcs hds with ⟨es, rfl⟩ | ⟨es, rfl⟩
  · have hes := hpos es
    rw [byteLength_append, List.length_append]
    omega
  · rw [byteLength_append, List.length_append]
    omega

/-- A line without the blanks at its end ends in a keyword if the keyword is the last thing in
it. -/
theorem endsIn_trimRight_iff (keyword : String) (line : List Char) :
    endsIn keyword (trimRight (String.ofList line)) = true ↔
      keyword.toList <:+ line.rdropWhile isBlank := by
  rw [endsIn, trimRight, String.toList_ofList, String.toList_ofList, List.isSuffixOf_iff_suffix]
  rfl

namespace ProverConfig

variable (config : ProverConfig)

/-- The keyword for a verdict. -/
def keyword : Bool → List Char
  | true => config.validSuffix.toList
  | false => config.invalidSuffix.toList

/-- Whether a line ends in a keyword, up to blanks. -/
def IsVerdict (line : List Char) : Prop :=
  ∃ valid, config.keyword valid <:+ line.rdropWhile isBlank

instance : DecidablePred config.IsVerdict := fun line =>
  inferInstanceAs (Decidable (∃ valid, config.keyword valid <:+ line.rdropWhile isBlank))

/-- A line gives a verdict if it ends in the keyword. Where it ends in both keywords it is the
longer one that counts, and that for an invalid formula if they are the same. -/
structure Gives (line : List Char) (valid : Bool) : Prop where
  ends : config.keyword valid <:+ line.rdropWhile isBlank
  longer : config.keyword (!valid) <:+ line.rdropWhile isBlank →
    (valid = true ↔ (config.keyword false).length < (config.keyword true).length)

/-- The lines that are verdicts. -/
def verdictLines (ls : List (List Char)) : List (List Char) :=
  ls.filter config.IsVerdict

variable {config}

/-- A line gives one verdict at most. -/
theorem Gives.rightUnique : Relator.RightUnique config.Gives := by
  intro line valid valid' h h'
  cases valid with
  | true =>
    cases valid' with
    | true => rfl
    | false => exact absurd ((h'.longer h.ends).mpr ((h.longer h'.ends).mp rfl)) Bool.false_ne_true
  | false =>
    cases valid' with
    | false => rfl
    | true => exact absurd ((h.longer h'.ends).mpr ((h'.longer h.ends).mp rfl)) Bool.false_ne_true

/-- A line that ends in a keyword gives the verdict that is read from it. -/
theorem exists_verdict?_of_isVerdict {line : List Char} (h : config.IsVerdict line) :
    ∃ valid, config.verdict? (trimRight (String.ofList line)) = some valid ∧
      config.Gives line valid := by
  have hvalid := endsIn_trimRight_iff config.validSuffix line
  have hinvalid := endsIn_trimRight_iff config.invalidSuffix line
  rw [verdict?]
  by_cases ht : config.keyword true <:+ line.rdropWhile isBlank
  · rw [hvalid.mpr ht]
    by_cases hf : config.keyword false <:+ line.rdropWhile isBlank
    · -- both keywords: their bytes are compared, which is a comparison of their lengths
      rw [hinvalid.mpr hf]
      have hbytes := byteLength_lt_iff_of_suffix hf ht
      refine ⟨decide (byteLength (config.keyword false) < byteLength (config.keyword true)), rfl, ?_⟩
      by_cases hlt : byteLength (config.keyword false) < byteLength (config.keyword true)
      · rw [decide_eq_true hlt]
        exact ⟨ht, fun _ => iff_of_true rfl (hbytes.mp hlt)⟩
      · rw [decide_eq_false hlt]
        exact ⟨hf, fun _ => iff_of_false Bool.false_ne_true (mt hbytes.mpr hlt)⟩
    · rw [Bool.eq_false_iff.mpr (mt hinvalid.mp hf)]
      exact ⟨true, rfl, ht, fun h => absurd h hf⟩
  · obtain ⟨valid, hends⟩ := h
    have hf : config.keyword false <:+ line.rdropWhile isBlank := by
      cases valid with
      | true => exact absurd hends ht
      | false => exact hends
    rw [Bool.eq_false_iff.mpr (mt hvalid.mp ht), hinvalid.mpr hf]
    exact ⟨false, rfl, hf, fun h => absurd h ht⟩

/-- A line that is no verdict is read as none. -/
theorem verdict?_of_not_isVerdict {line : List Char} (h : ¬config.IsVerdict line) :
    config.verdict? (trimRight (String.ofList line)) = none := by
  have hvalid := endsIn_trimRight_iff config.validSuffix line
  have hinvalid := endsIn_trimRight_iff config.invalidSuffix line
  rw [verdict?, Bool.eq_false_iff.mpr fun hends => h ⟨true, hvalid.mp hends⟩,
    Bool.eq_false_iff.mpr fun hends => h ⟨false, hinvalid.mp hends⟩]

/-- The verdicts read from some lines are those of the verdict lines among them. -/
theorem forall₂_filterMap_verdict? {ls ms : List (List Char)}
    (h : List.Forall₂ (fun l m => m.rdropWhile isBlank = l.rdropWhile isBlank) ls ms) :
    List.Forall₂ config.Gives (config.verdictLines ls)
      ((ms.map String.ofList).filterMap fun line => config.verdict? (trimRight line)) := by
  induction h with
  | nil => exact .nil
  | @cons l m ls ms hlm _ ih =>
    have htrim : trimRight (String.ofList m) = trimRight (String.ofList l) := by
      rw [trimRight, trimRight, String.toList_ofList, String.toList_ofList]
      exact congrArg String.ofList hlm
    rw [List.map_cons, verdictLines]
    by_cases hl : config.IsVerdict l
    · obtain ⟨valid, hvalid, hgives⟩ := exists_verdict?_of_isVerdict hl
      rw [List.filter_cons_of_pos (by simpa using hl), List.filterMap_cons_some (htrim ▸ hvalid)]
      exact .cons hgives ih
    · have hnone := verdict?_of_not_isVerdict hl
      rw [List.filter_cons_of_neg (by simpa using hl), List.filterMap_cons_none (htrim ▸ hnone)]
      exact ih

/-- The verdicts in an output are those of its verdict lines. -/
theorem forall₂_verdicts (config : ProverConfig) {stdout : String} {ls : List (List Char)}
    (h : Lined stdout.toList ls) :
    List.Forall₂ config.Gives (config.verdictLines ls) (config.verdicts stdout) :=
  forall₂_filterMap_verdict? h.forall₂_splitLines

/-- What becomes of a run that has ended. -/
theorem judge_cases (config : ProverConfig) (expected : Nat) (output : ProcessOutput) :
    (output.exit ≠ 0 ∧ config.judge expected (.ok output) =
      .error (.exited config.command output.exit (trim output.stderr))) ∨
    (output.exit = 0 ∧ (config.verdicts output.stdout).length ≠ expected ∧
      config.judge expected (.ok output) =
        .error (.verdictCount expected (config.verdicts output.stdout).length)) ∨
    (output.exit = 0 ∧ (config.verdicts output.stdout).length = expected ∧
      config.judge expected (.ok output) = .ok (config.verdicts output.stdout)) := by
  rw [judge]
  by_cases hexit : output.exit = 0
  · rw [if_neg (not_not_intro hexit)]
    by_cases hlength : (config.verdicts output.stdout).length = expected
    · exact .inr (.inr ⟨hexit, hlength, if_pos hlength⟩)
    · exact .inr (.inl ⟨hexit, hlength, if_neg hlength⟩)
  · exact .inl ⟨hexit, if_pos hexit⟩

end ProverConfig

/-! ## Positions -/

namespace ProofSummary

/-- Every verdict gets one number. -/
@[simp] theorem length_number (n : Nat) (judged : List (Obligation × Bool)) :
    (number n judged).length = judged.length := by
  induction judged generalizing n with
  | nil => rfl
  | cons _ judged ih => rw [number, List.length_cons, List.length_cons, ih]

/-- The verdict at an index gets the first number plus the index. -/
theorem getElem?_number (n i : Nat) (judged : List (Obligation × Bool)) :
    (number n judged)[i]? = judged[i]?.map fun (o, valid) => ofVerdict (n + i) o valid := by
  induction judged generalizing n i with
  | nil => rfl
  | cons _ judged ih =>
    rw [number]
    cases i with
    | zero => rfl
    | succ i =>
      rw [List.getElem?_cons_succ, List.getElem?_cons_succ, ih, Nat.add_right_comm]
      rfl

end ProofSummary

/-- A verdict is recorded as proved exactly if it is valid. -/
theorem ProofResult.isProved_ofVerdict (valid : Bool) :
    (ProofResult.ofVerdict valid).isProved = valid := by
  cases valid with
  | true => rfl
  | false => rfl

namespace Batch

/-- A result in which the obligation at a position has the verdict at the same position. -/
structure Attributes (b : Batch) (verdicts : List Bool) (v : Verification) : Prop where
  length_proofs : v.proofs.length = b.obligations.length
  /-- The summary at a position is of the obligation and the verdict there. -/
  proof : ∀ (i : Nat) (o : Obligation) (valid : Bool), b.obligations[i]? = some o →
    verdicts[i]? = some valid →
    ∃ s, v.proofs[i]? = some s ∧ s.condition = o.predicate.render ∧ s.result.isProved = valid
  /-- The errors are of the obligations at the positions of the verdict `false`. -/
  errors : ∃ errors, v.outcome = .semanticErrors errors ∧
    List.Forall₂ (fun i e => ∃ o, b.obligations[i]? = some o ∧ e = SemanticError.unproved o)
      (verdicts.idxsOf false) errors
  isSuccess_iff : v.outcome.isSuccess = true ↔
    ∀ (i : Nat) (o : Obligation), b.obligations[i]? = some o → verdicts[i]? = some true

/-- The positions of failed obligations among `os` count from the end of those `before`. -/
theorem forall₂_unproved (before os : List Obligation) (verdicts : List Bool)
    (h : verdicts.length = os.length) :
    List.Forall₂ (fun i e => ∃ o, (before ++ os)[i]? = some o ∧ e = SemanticError.unproved o)
      (verdicts.idxsOf false before.length)
      (((os.zip verdicts).filter fun (_, valid) => !valid).map fun (o, _) => .unproved o) := by
  induction os generalizing before verdicts with
  | nil =>
    obtain rfl := List.eq_nil_of_length_eq_zero h
    exact .nil
  | cons o os ih =>
    obtain ⟨valid, verdicts, rfl⟩ := List.exists_of_length_succ verdicts h
    -- the obligation joins those before, so that the rest starts one position later
    have hrest := ih (before ++ [o]) verdicts (Nat.succ.inj h)
    rw [List.append_assoc, List.singleton_append, List.length_append, List.length_singleton] at hrest
    rw [List.idxsOf_cons, List.zip_cons_cons]
    cases valid with
    | true => exact hrest
    | false => exact .cons ⟨o, by simp, rfl⟩ hrest

/-- With as many verdicts as obligations, each obligation has its own. -/
theorem attributes_conclude {b : Batch} {verdicts : List Bool}
    (h : verdicts.length = b.obligations.length) : b.Attributes verdicts (b.conclude verdicts) := by
  have herrors := forall₂_unproved [] b.obligations verdicts h
  refine ⟨?_, ?_, ⟨_, rfl, herrors⟩, ?_⟩
  · rw [conclude, ProofSummary.length_number, List.length_zip, h, Nat.min_self]
  · intro i o valid ho hvalid
    have hjudged : (b.obligations.zip verdicts)[i]? = some (o, valid) :=
      List.getElem?_zip_eq_some.mpr ⟨ho, hvalid⟩
    refine ⟨.ofVerdict (0 + i) o valid, ?_, rfl, ProofResult.isProved_ofVerdict valid⟩
    rw [conclude, ProofSummary.getElem?_number, hjudged]
    rfl
  · have hnil : (b.conclude verdicts).outcome.isSuccess = true ↔ verdicts.idxsOf false = [] := by
      rw [conclude, Outcome.isSuccess, List.isEmpty_iff_length_eq_zero, ← herrors.length_eq,
        List.length_eq_zero_iff]
      rfl
    -- A verdict for every obligation: none is false exactly if each obligation has a true one.
    rw [hnil, List.idxsOf_eq_nil_iff]
    constructor
    · intro hall i o ho
      have hi : i < verdicts.length := by
        rw [h]
        exact (List.getElem?_eq_some_iff.mp ho).1
      rw [List.getElem?_eq_getElem hi]
      simpa using hall _ (List.getElem_mem hi)
    · intro hall valid hvalid
      obtain ⟨i, hi, rfl⟩ := List.mem_iff_getElem.mp hvalid
      have htrue := hall i _ (List.getElem?_eq_getElem (h ▸ hi))
      rw [List.getElem?_eq_getElem hi] at htrue
      simpa using htrue

end Batch

/-! ## Rejected tasks -/

namespace Task

/-- A task whose formulas and program can all be read. -/
structure IsReadable (t : Task) : Prop where
  precondition : (Predicate.ofText? t.precondition).isSome
  postcondition : (Predicate.ofText? t.postcondition).isSome
  loops : ∀ l ∈ t.loops,
    (Predicate.ofText? l.invariant).isSome ∧ (IntExpr.ofText? l.bound).isSome
  code : (Program.ofText? t.code).isSome

/-- There are no faults among loops that can be read, and none of them is lost. -/
theorem readLoops_faults (n : Nat) (ls : List LoopSource) :
    ((readLoops n ls).2 = [] ↔ ∀ l ∈ ls,
      (Predicate.ofText? l.invariant).isSome ∧ (IntExpr.ofText? l.bound).isSome) ∧
    ((readLoops n ls).2 = [] → (readLoops n ls).1.length = ls.length) := by
  induction ls generalizing n with
  | nil => simp [readLoops]
  | cons l ls ih =>
    obtain ⟨hfaults, hlength⟩ := ih (n + 1)
    rw [readLoops, List.forall_mem_cons, ← hfaults]
    cases hi : Predicate.ofText? l.invariant with
    | none => simp [check]
    | some invariant =>
      cases hb : IntExpr.ofText? l.bound with
      | none => simp [check]
      | some bound => simpa [check] using hlength

/-- A task whose texts can all be read is read, with one specification for each loop text. -/
theorem read_of_isReadable {t : Task} (h : t.IsReadable) :
    ∃ spec program, t.read = .ok (spec, program) ∧ Program.ofText? t.code = some program ∧
      spec.loops.length = t.loops.length := by
  obtain ⟨pre, hpre⟩ := Option.isSome_iff_exists.mp h.precondition
  obtain ⟨post, hpost⟩ := Option.isSome_iff_exists.mp h.postcondition
  obtain ⟨program, hprogram⟩ := Option.isSome_iff_exists.mp h.code
  obtain ⟨hfaults, hlength⟩ := readLoops_faults 1 t.loops
  have hnil := hfaults.mpr h.loops
  refine ⟨⟨pre, post, (readLoops 1 t.loops).1⟩, program, ?_, hprogram, hlength hnil⟩
  simp only [read, hpre, hpost, hprogram, hnil, check, List.append_nil]

/-- Only tasks whose texts can all be read are read. -/
theorem isReadable_of_read {t : Task} {result : Spec × Program} (h : t.read = .ok result) :
    t.IsReadable := by
  unfold read at h
  cases hpre : Predicate.ofText? t.precondition with
  | none => simp only [hpre, reduceCtorEq] at h
  | some pre =>
    cases hpost : Predicate.ofText? t.postcondition with
    | none => simp only [hpre, hpost, reduceCtorEq] at h
    | some post =>
      cases hprogram : Program.ofText? t.code with
      | none => simp only [hpre, hpost, hprogram, reduceCtorEq] at h
      | some program =>
        simp only [hpre, hpost, hprogram, check, List.nil_append, List.append_nil] at h
        cases hfaults : (readLoops 1 t.loops).2 with
        | nil =>
          exact ⟨Option.isSome_of_eq_some hpre, Option.isSome_of_eq_some hpost,
            (readLoops_faults 1 t.loops).1.mp hfaults, Option.isSome_of_eq_some hprogram⟩
        | cons fault faults => simp only [hfaults, reduceCtorEq] at h

/-- A task with faults in its texts or with loops that are not as specified is rejected. -/
theorem prepare_of_rejected (registry : Registry) {t : Task}
    (h : ¬t.IsReadable ∨ ∃ program, Program.ofText? t.code = some program ∧
      program.countLoops ≠ t.loops.length) :
    ∃ o, t.prepare registry = .ok (.rejected o) ∧ o.isSuccess = false := by
  by_cases hreadable : t.IsReadable
  · obtain ⟨program, hprogram, hne⟩ := h.resolve_left (not_not_intro hreadable)
    obtain ⟨spec, program', hread, hprogram', hlength⟩ := read_of_isReadable hreadable
    obtain rfl : program' = program := Option.some.inj (hprogram'.symm.trans hprogram)
    rw [← hlength] at hne
    rw [prepare, hread]
    simp only [if_neg hne]
    exact ⟨_, rfl, rfl⟩
  · cases hread : t.read with
    | error fields =>
      rw [prepare, hread]
      exact ⟨_, rfl, rfl⟩
    | ok result => exact absurd (isReadable_of_read hread) hreadable

/-- What preparation can lead to: a task is rejected with errors, or the formulas of its batch are
the terms of its obligations, one by one. -/
theorem cases_of_prepare {registry : Registry} {t : Task} {p : Prepared}
    (h : t.prepare registry = .ok p) :
    (∃ o, p = .rejected o ∧ o.isSuccess = false) ∨
    ∃ b enabled, p = .ready b ∧ registry.enable t.axioms = .ok enabled ∧
      List.Forall₂ (fun o f => o.predicate.lower (Axiom.triggers enabled) = .ok f)
        b.obligations b.formulas := by
  unfold prepare at h
  -- A task is rejected where it cannot be read or the loops are miscounted; otherwise it fails or
  -- is ready.
  cases hread : t.read with
  | error fields =>
    rw [hread] at h
    cases h
    exact .inl ⟨_, rfl, rfl⟩
  | ok result =>
    obtain ⟨spec, program⟩ := result
    rw [hread] at h
    by_cases hcount : program.countLoops = spec.loops.length
    · simp only [if_pos hcount] at h
      obtain ⟨os, -, h⟩ := exists_of_bind_eq_ok h
      obtain ⟨b, hb, h⟩ := exists_of_bind_eq_ok h
      cases h
      unfold batch at hb
      obtain ⟨enabled, henabled, hb⟩ := exists_of_bind_eq_ok hb
      obtain ⟨terms, hterms, hb⟩ := exists_of_bind_eq_ok hb
      cases hb
      exact .inr ⟨_, enabled, rfl, eq_ok_of_mapError_eq_ok henabled,
        forall₂_of_mapM_eq_ok (eq_ok_of_mapError_eq_ok hterms)⟩
    · simp only [if_neg hcount] at h
      cases h
      exact .inl ⟨_, rfl, rfl⟩

/-! ## Runs of the prover -/

section

variable {registry : Registry} {host : Host Id} {config : ProverConfig} {t : Task}

/-- A task that cannot be prepared fails in the same way when it is verified. -/
theorem verify_of_error {e : VerifyError} (h : t.prepare registry = .error e) :
    (t.verify registry (prove host config)).run = .error e := by
  rw [verify, h]
  rfl

/-- A task that is rejected without the prover is reported as it was rejected. -/
theorem verify_of_rejected {o : Outcome} (h : t.prepare registry = .ok (.rejected o)) :
    (t.verify registry (prove host config)).run = .ok o.verification := by
  rw [verify, h]
  rfl

/-- A prepared task is reported by what the prover's answer says about its formulas. -/
theorem verify_of_ready {b : Batch} (h : t.prepare registry = .ok (.ready b)) :
    (t.verify registry (prove host config)).run =
      ((config.judge b.formulas.length (host.runProver config b.text).run).mapError
        .prover).map b.conclude := by
  rw [verify, h]
  simp only [prove, Id.run_bind]
  cases config.judge b.formulas.length (host.runProver config b.text).run with
  | error e => rfl
  | ok verdicts => rfl

/-- A task that ends in success was ready for the prover. -/
theorem ready_of_isSuccess {v : Verification}
    (hv : (t.verify registry (prove host config)).run = .ok v) (hsuccess : v.outcome.isSuccess) :
    ∃ b, t.prepare registry = .ok (.ready b) := by
  cases hprepare : t.prepare registry with
  | error e =>
    rw [verify_of_error hprepare] at hv
    cases hv
  | ok p =>
    obtain ⟨o, rfl, ho⟩ | ⟨b, _, rfl, -⟩ := cases_of_prepare hprepare
    · rw [verify_of_rejected hprepare] at hv
      cases hv
      exact absurd hsuccess (Bool.eq_false_iff.mp ho)
    · exact ⟨b, rfl⟩

end

end Task

/-- A rejected task is no success. Of a task that is ready, the prover gets the formulas of the
obligations in their order. There is a result exactly if the prover succeeds and writes as many
verdict lines as there are obligations, and it gives each obligation the verdict at its position. -/
theorem Task.attributes_of_verify (registry : Registry) (host : Host Id) (config : ProverConfig)
    (t : Task) :
    let result := (t.verify registry (prove host config)).run
    ((¬t.IsReadable ∨ ∃ program, Program.ofText? t.code = some program ∧
      program.countLoops ≠ t.loops.length) →
      ∃ v, result = .ok v ∧ v.outcome.isSuccess = false) ∧
    (∀ v, result = .ok v → v.outcome.isSuccess = true → ∃ b, t.prepare registry = .ok (.ready b)) ∧
    ∀ b, t.prepare registry = .ok (.ready b) →
      (∃ enabled, registry.enable t.axioms = .ok enabled ∧
        List.Forall₂ (fun o f => o.predicate.lower (Axiom.triggers enabled) = .ok f)
          b.obligations b.formulas) ∧
      (∀ reason, (host.runProver config b.text).run = .error reason →
        result = .error (.prover (.notStarted config.command reason))) ∧
      ∀ output, (host.runProver config b.text).run = .ok output →
        (∃ ls, Lined output.stdout.toList ls) ∧
        ∀ ls, Lined output.stdout.toList ls →
          ∃ verdicts, List.Forall₂ config.Gives (config.verdictLines ls) verdicts ∧
            ((∃ v, result = .ok v) ↔
              output.exit = 0 ∧ (config.verdictLines ls).length = b.obligations.length) ∧
            (∀ v, result = .ok v → b.Attributes verdicts v) ∧
            (output.exit ≠ 0 → result =
              .error (.prover (.exited config.command output.exit (trim output.stderr)))) ∧
            (output.exit = 0 → (config.verdictLines ls).length ≠ b.obligations.length → result =
              .error (.prover (.verdictCount b.obligations.length
                (config.verdictLines ls).length))) := by
  intro result
  refine ⟨fun h => ?_, fun v => ready_of_isSuccess, fun b hb => ?_⟩
  · obtain ⟨o, hprepare, ho⟩ := prepare_of_rejected registry h
    exact ⟨_, verify_of_rejected hprepare, ho⟩
  have hverify : result = _ := verify_of_ready hb
  obtain ⟨_, ⟨⟩, -⟩ | ⟨_, enabled, ⟨⟩, henabled, hformulas⟩ := cases_of_prepare hb
  -- the prover is asked for a verdict on each formula, and these are as many as the obligations
  rw [← hformulas.length_eq] at hverify
  refine ⟨⟨enabled, henabled, hformulas⟩, fun reason hreason => ?_, fun output houtput => ?_⟩
  · rw [hverify, hreason]
    rfl
  refine ⟨Lined.exists_of_text _, fun ls hls => ?_⟩
  have hgives := config.forall₂_verdicts hls
  refine ⟨config.verdicts output.stdout, hgives, ?_⟩
  rw [houtput] at hverify
  rw [hgives.length_eq]
  obtain ⟨hexit, hjudge⟩ | ⟨hexit, hlength, hjudge⟩ | ⟨hexit, hlength, hjudge⟩ :=
    config.judge_cases b.obligations.length output
  · rw [hjudge] at hverify
    have hno : ∀ v, result ≠ .ok v := fun v hv => by cases hverify.symm.trans hv
    exact ⟨⟨fun ⟨v, hv⟩ => absurd hv (hno v), fun h => absurd h.1 hexit⟩,
      fun v hv => absurd hv (hno v), fun _ => hverify, fun h => absurd h hexit⟩
  · rw [hjudge] at hverify
    have hno : ∀ v, result ≠ .ok v := fun v hv => by cases hverify.symm.trans hv
    exact ⟨⟨fun ⟨v, hv⟩ => absurd hv (hno v), fun h => absurd h.2 hlength⟩,
      fun v hv => absurd hv (hno v), fun h => absurd hexit h, fun _ _ => hverify⟩
  · rw [hjudge] at hverify
    refine ⟨⟨fun _ => ⟨hexit, hlength⟩, fun _ => ⟨_, hverify⟩⟩, fun v hv => ?_,
      fun h => absurd hexit h, fun _ h => absurd hlength h⟩
    cases hverify.symm.trans hv
    exact Batch.attributes_conclude hlength

/-- The predicate `x > 0`. -/
def choiceGuard : Predicate := .comp .gt (.name "x") (.const 0)

/-- The program `if x > 0 → skip fi`. -/
def openChoice : Program := ⟨[.cond [choiceGuard] [[.skip .zero]] .zero]⟩

/-- The program is to end with `x > 0` from any state. -/
def openChoiceTask : Task where
  precondition := (Predicate.const true).toJson.compact
  postcondition := choiceGuard.toJson.compact
  loops := []
  axioms := []
  shorthands := []
  code := openChoice.toJson.compact

/-- What the texts of the task are read as. -/
theorem read_openChoiceTask :
    openChoiceTask.read = .ok (⟨.const true, choiceGuard, []⟩, openChoice) := by
  have hguard : choiceGuard.Fits := by
    simp [choiceGuard, Predicate.Fits, IntExpr.name, IntExpr.Fits, Variable.Fits]
  have hprogram : openChoice.Fits := by
    simp [openChoice, Program.Fits, Statement.FitsSeq, Statement.Fits, Statement.FitsBodies, hguard,
      TextRange.Fits, Position.Fits, TextRange.zero, Position.zero]
  have hpre : Predicate.ofText? openChoiceTask.precondition = some (.const true) :=
    Predicate.ofText?_toJson trivial (by decide)
  have hpost : Predicate.ofText? openChoiceTask.postcondition = some choiceGuard :=
    Predicate.ofText?_toJson hguard (by decide)
  have hcode : Program.ofText? openChoiceTask.code = some openChoice :=
    Program.ofText?_toJson hprogram (by decide)
  rw [Task.read, hpre, hpost, hcode]
  rfl

/-- The task leads to two obligations. -/
theorem prepare_openChoiceTask :
    ∃ b, openChoiceTask.prepare ⟨[]⟩ = .ok (.ready b) ∧ b.obligations.length = 2 := by
  let spec : Spec := ⟨.const true, choiceGuard, []⟩
  have hcomputed : (Task.obligations [] spec openChoice >>=
      Task.batch ⟨[]⟩ []).toOption.map (fun b => b.obligations.length) = some 2 := by
    cbv
  obtain ⟨b, hb, htwo⟩ := Option.map_eq_some_iff.mp hcomputed
  obtain ⟨os, hos, hbatch⟩ := exists_of_bind_eq_ok (eq_ok_of_toOption hb)
  refine ⟨b, ?_, htwo⟩
  have hcount : openChoice.countLoops = spec.loops.length := rfl
  rw [Task.prepare, read_openChoiceTask]
  simp only [spec, if_pos hcount, openChoiceTask, hos, hbatch, bind, Except.bind]

/-- In some states no guard of the program holds, which is its first obligation. The line that
refuses it ends in both keywords. -/
theorem openChoiceTask_attribution :
    let host := FileTree.host (.dir []) "" fun _ _ => .ok ⟨0, "1: invalid\r\n2: valid \n", ""⟩
    let config : ProverConfig := ⟨"simplify", [], "valid", "invalid"⟩
    ∃ b v, openChoiceTask.prepare ⟨[]⟩ = .ok (.ready b) ∧ b.obligations.length = 2 ∧
      (openChoiceTask.verify ⟨[]⟩ (prove host config)).run = .ok v ∧
      b.Attributes [false, true] v ∧ v.outcome.isSuccess = false := by
  intro host config
  obtain ⟨b, hb, htwo⟩ := prepare_openChoiceTask
  obtain ⟨-, -, hready⟩ := Task.attributes_of_verify ⟨[]⟩ host config openChoiceTask
  obtain ⟨-, -, hrun⟩ := hready b hb
  obtain ⟨⟨ls, hls⟩, hlines⟩ := hrun _ rfl
  obtain ⟨verdicts, hgives, hok, hattributes, -⟩ := hlines ls hls
  have hverdicts : config.verdicts "1: invalid\r\n2: valid \n" = [false, true] := by
    decide
  have hpinned := config.forall₂_verdicts hls
  rw [hverdicts] at hpinned
  obtain rfl : verdicts = [false, true] :=
    List.right_unique_forall₂' ProverConfig.Gives.rightUnique hgives hpinned
  obtain ⟨v, hv⟩ := hok.mpr ⟨rfl, hgives.length_eq.trans htwo.symm⟩
  refine ⟨b, v, hb, htwo, hv, hattributes v hv, Bool.eq_false_iff.mpr fun hsuccess => ?_⟩
  have hfirst : 0 < b.obligations.length := htwo ▸ Nat.two_pos
  have htrue := (hattributes v hv).isSuccess_iff.mp hsuccess 0 _ (List.getElem?_eq_getElem hfirst)
  cases htrue

end GuardedCommand
