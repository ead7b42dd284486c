import GuardedCommand.Proofs.BackgroundText
import GuardedCommand.Proofs.ClaimMeaning
import GuardedCommand.Prover.Registry
import Mathlib.Algebra.Order.Interval.Finset.SuccPred
import Mathlib.Data.Int.SuccPred
import Mathlib.Logic.Equiv.Basic

/-! # The built-in background definitions are true

The prover takes the background definitions of the enabled axioms for granted. The built-in ones are
true of the sums, products, rows and permutations they are about, so nothing false follows from
them.

* `Interpretation.withBackground`: the words of the background definitions stand for what they are
  meant to stand for.
* `Term.TrueDefinition`, `Axiom.TrueIn`: what the prover is told by a definition and by the text of
  an axiom.
* `Background.terms_true`: every built-in definition is true.
* `Axiom.Entails`: what follows from the definitions of some axioms.
* `Registry.entails_true_of_enable`: what follows from built-in axioms is true, and not all follows.
-/

namespace GuardedCommand

/-! ## What the prover is told -/

namespace Background

/-- The functions that the definitions are about. -/
def functionWords : List String :=
  ["sum", "prod", "msumrow", "msum", "rowcolprod", "rowvecprod"]

/-- The relations that the definitions are about. -/
def relationWords : List String := ["contains", "perm"]

/-- The background definitions of the built-in axioms. -/
def builtin : List Background :=
  [arraySum, arrayProd, arrayContains, arrayPerm, matrixSum, rowColumn, rowVector]

end Background

/-- The interpretation that gives the words of the background definitions their meaning and agrees
with `I` on all else. -/
noncomputable def Interpretation.withBackground (I : Interpretation) : Interpretation where
  function f vs :=
    if f ∈ Background.functionWords then .int (Background.function f vs) else I.function f vs
  relation f vs :=
    if f ∈ Background.relationWords then Background.relation f vs else I.relation f vs
  fold := I.fold
  count := I.count

/-- A definition is true: it says of a name that it is a relation, or states a formula that holds
whatever integers and maps its names stand for. -/
def Term.TrueDefinition (I : Interpretation) : Term → Prop
  | .list [.atom "DEFPRED", .list _] => True
  | .list [.atom "BG_PUSH",
      .list [.atom "FORALL", .list _, .list (.atom "PATS" :: _), body]] =>
    ∀ s, body.Holds I s
  | _ => False

/-- The definitions that are read from the text of an axiom are true. -/
def Axiom.TrueIn (I : Interpretation) (a : Axiom) : Prop :=
  ∃ ts, Term.readDefinitions a.definition = some ts ∧ ∀ t ∈ ts, t.TrueDefinition I

/-- A formula follows from some axioms: it holds wherever their definitions are true. -/
def Axiom.Entails (axioms : List Axiom) (t : Term) : Prop :=
  ∀ I : Interpretation, (∀ a ∈ axioms, a.TrueIn I) → ∀ s, t.Holds I s

/-- A declaration of a relation says nothing that could be false. -/
theorem Declaration.trueDefinition_relation {I : Interpretation} (name : String)
    (params : List String) :
    (Declaration.relation name params).layout.toTerm.TrueDefinition I := by
  simp only [Declaration.layout, Layout.app, Layout.names, Layout.toTerm, Layout.toTerms]
  trivial

/-- A declaration of a fact is true if the fact holds in every state. -/
theorem Declaration.trueDefinition_fact {I : Interpretation} {vars : List String}
    {pattern body : Layout} :
    (Declaration.fact vars pattern body).layout.toTerm.TrueDefinition I ↔
      ∀ s, body.toTerm.Holds I s := by
  simp only [Declaration.layout, Layout.app, Layout.names, Layout.toTerm, Layout.toTerms]
  exact Iff.rfl

/-! ## Meaning of layouts -/

namespace Layout

section

variable {I : Interpretation} {s : State}

/-- An application, as a term. -/
theorem toTerm_app (f : String) (args : List Layout) :
    (app f args).toTerm = Term.apply f (toTerms args) := by
  rw [app, toTerm, toTerms, toTerm, Term.apply]

/-- An implication on one line is an implication. -/
@[simp] theorem holds_implies (p q : Layout) :
    (implies p q).toTerm.Holds I s ↔ (p.toTerm.Holds I s → q.toTerm.Holds I s) := by
  rw [implies, toTerm_app, Term.holds_of_connective rfl]
  simp only [toTerms, Term.holdsAll]

/-- An implication with its conclusion on the next line is an implication. -/
@[simp] theorem holds_impliesBelow (p q : Layout) :
    (impliesBelow p q).toTerm.Holds I s ↔ (p.toTerm.Holds I s → q.toTerm.Holds I s) := by
  rw [impliesBelow, toTerm_app, Term.holds_of_connective rfl]
  simp only [toTerms, Term.holdsAll, toTerm]

/-- A negation means what it says. -/
@[simp] theorem holds_not (p : Layout) :
    (app "NOT" [p]).toTerm.Holds I s ↔ ¬ p.toTerm.Holds I s := by
  rw [toTerm_app, Term.holds_of_connective rfl]
  simp only [toTerms, Term.holdsAll]

/-- An equivalence means what it says. -/
@[simp] theorem holds_iff (p q : Layout) :
    (app "IFF" [p, q]).toTerm.Holds I s ↔ (p.toTerm.Holds I s ↔ q.toTerm.Holds I s) := by
  rw [toTerm_app, Term.holds_of_connective rfl]
  simp only [toTerms, Term.holdsAll]

/-- A disjunction means what it says. -/
@[simp] theorem holds_or (p q : Layout) :
    (app "OR" [p, q]).toTerm.Holds I s ↔ p.toTerm.Holds I s ∨ q.toTerm.Holds I s := by
  rw [toTerm_app, Term.holds_of_connective rfl]
  simp only [toTerms, Term.holdsAll, List.foldr_cons, List.foldr_nil, or_false]

/-- A conjunction of any number of formulas. -/
theorem holds_and (ps : List Layout) :
    (app "AND" ps).toTerm.Holds I s ↔ ∀ p ∈ ps, p.toTerm.Holds I s := by
  rw [toTerm_app, Term.holds_of_connective rfl]
  induction ps with
  | nil => simp [toTerms, Term.holdsAll]
  | cons p ps ih =>
    rw [toTerms, Term.holdsAll, List.foldr_cons, ih, List.forall_mem_cons]

/-- A strict comparison compares integers. -/
@[simp] theorem holds_lt (x y : Layout) :
    (app "<" [x, y]).toTerm.Holds I s ↔
      (x.toTerm.value I s).toInt < (y.toTerm.value I s).toInt := by
  rw [toTerm_app, toTerms, toTerms, toTerms, Term.holds_of_comparison rfl rfl]

/-- A comparison compares integers. -/
@[simp] theorem holds_le (x y : Layout) :
    (app "<=" [x, y]).toTerm.Holds I s ↔
      (x.toTerm.value I s).toInt ≤ (y.toTerm.value I s).toInt := by
  rw [toTerm_app, toTerms, toTerms, toTerms, Term.holds_of_comparison rfl rfl]

/-- An equation compares integers. -/
@[simp] theorem holds_eq (x y : Layout) :
    (eq x y).toTerm.Holds I s ↔ (x.toTerm.value I s).toInt = (y.toTerm.value I s).toInt := by
  rw [eq, toTerm_app, toTerms, toTerms, toTerms, Term.holds_of_comparison rfl rfl]

/-- An element of an array. -/
@[simp] theorem value_select (a i : Layout) :
    (select a i).toTerm.value I s = (a.toTerm.value I s).get (i.toTerm.value I s).toInt := by
  rw [select, toTerm_app, Term.value_of_operation rfl]
  simp only [toTerms, Term.valueAll]

/-- An array with one element replaced. -/
@[simp] theorem value_store (a i x : Layout) :
    (app "store" [a, i, x]).toTerm.value I s =
      (a.toTerm.value I s).set (i.toTerm.value I s).toInt (x.toTerm.value I s) := by
  rw [toTerm_app, Term.value_of_operation rfl]
  simp only [toTerms, Term.valueAll]

/-- A sum of integers. -/
@[simp] theorem value_plus (x y : Layout) :
    (app "+" [x, y]).toTerm.value I s =
      .int ((x.toTerm.value I s).toInt + (y.toTerm.value I s).toInt) := by
  rw [toTerm_app, Term.value_of_operation rfl]
  simp only [toTerms, Term.valueAll]

/-- A product of integers. -/
@[simp] theorem value_times (x y : Layout) :
    (app "*" [x, y]).toTerm.value I s =
      .int ((x.toTerm.value I s).toInt * (y.toTerm.value I s).toInt) := by
  rw [toTerm_app, Term.value_of_operation rfl]
  simp only [toTerms, Term.valueAll]

/-- The digit `1` stands for one. -/
@[simp] theorem value_one : (Layout.atom "1").toTerm.value I s = .int 1 := by
  rw [toTerm, Term.value, show Prover.numeral? "1" = some 1 by decide]
  rfl

/-- The digit `0` stands for zero. -/
@[simp] theorem value_zero : (Layout.atom "0").toTerm.value I s = .int 0 := by
  rw [toTerm, Term.value, show Prover.numeral? "0" = some 0 by decide]
  rfl

/-- The number before. -/
@[simp] theorem value_before (x : Layout) :
    (before x).toTerm.value I s = .int ((x.toTerm.value I s).toInt - 1) := by
  rw [before, toTerm_app, Term.value_of_operation rfl]
  simp only [toTerms, Term.valueAll, value_one, Value.toInt_int]

/-- The number after. -/
@[simp] theorem value_after (x : Layout) :
    (after x).toTerm.value I s = .int ((x.toTerm.value I s).toInt + 1) := by
  rw [after, value_plus, value_one, Value.toInt_int]

/-- A line break means nothing. -/
@[simp] theorem toTerm_nextLine (n : Nat) (x : Layout) : (nextLine n x).toTerm = x.toTerm := by
  rw [toTerm]

/-- A name stands for its value. -/
theorem value_name {x : String} (h : Prover.numeral? x = none) :
    (Layout.atom x).toTerm.value I s = s x := by
  rw [toTerm, Term.value, h]

/-- A function of the background definitions has its meaning. -/
theorem value_function {f : String} (hf : f ∈ Background.functionWords) (args : List Layout) :
    (app f args).toTerm.value I.withBackground s =
      .int (Background.function f (Term.valueAll I.withBackground (toTerms args) s)) := by
  have hown : f ∉ Prover.words := by
    revert f
    decide
  rw [toTerm_app, Term.value_apply_of_notMem hown]
  exact if_pos hf

/-- A relation of the background definitions has its meaning. -/
theorem holds_relation {f : String} (hf : f ∈ Background.relationWords) (args : List Layout) :
    (app f args).toTerm.Holds I.withBackground s ↔
      Background.relation f (Term.valueAll I.withBackground (toTerms args) s) := by
  have hown : f ∉ Prover.words := by
    revert f
    decide
  rw [toTerm_app, Term.holds_apply_of_notMem hown]
  exact iff_of_eq (if_pos hf)

end

end Layout

/-! ## Ranges and exchanges -/

section

variable {lo hi : Int}

/-- A sum over a range ends with its last summand. -/
theorem sum_Icc_last (h : lo ≤ hi) (f : Int → Int) :
    ∑ k ∈ Finset.Icc lo hi, f k = ∑ k ∈ Finset.Icc lo (hi - 1), f k + f hi := by
  have hlast : hi ∉ Finset.Icc lo (hi - 1) := by
    rw [Finset.mem_Icc]
    omega
  rw [← Finset.insert_Icc_sub_one_right_eq_Icc h, Finset.sum_insert hlast, add_comm]

/-- A sum over a range starts with its first summand. -/
theorem sum_Icc_first (h : lo ≤ hi) (f : Int → Int) :
    ∑ k ∈ Finset.Icc lo hi, f k = f lo + ∑ k ∈ Finset.Icc (lo + 1) hi, f k := by
  have hfirst : lo ∉ Finset.Icc (lo + 1) hi := by
    rw [Finset.mem_Icc]
    omega
  rw [← Finset.insert_Icc_add_one_left_eq_Icc h, Finset.sum_insert hfirst]

/-- A product over a range ends with its last factor. -/
theorem prod_Icc_last (h : lo ≤ hi) (f : Int → Int) :
    ∏ k ∈ Finset.Icc lo hi, f k = (∏ k ∈ Finset.Icc lo (hi - 1), f k) * f hi := by
  have hlast : hi ∉ Finset.Icc lo (hi - 1) := by
    rw [Finset.mem_Icc]
    omega
  rw [← Finset.insert_Icc_sub_one_right_eq_Icc h, Finset.prod_insert hlast, mul_comm]

/-- A product over a range starts with its first factor. -/
theorem prod_Icc_first (h : lo ≤ hi) (f : Int → Int) :
    ∏ k ∈ Finset.Icc lo hi, f k = f lo * ∏ k ∈ Finset.Icc (lo + 1) hi, f k := by
  have hfirst : lo ∉ Finset.Icc (lo + 1) hi := by
    rw [Finset.mem_Icc]
    omega
  rw [← Finset.insert_Icc_add_one_left_eq_Icc h, Finset.prod_insert hfirst]

end

/-- The numbers below `n` with two of them exchanged are the numbers below `n`. -/
theorem map_swap_range {i j n : Nat} (hi : i < n) (hj : j < n) :
    ((List.range n).map (Equiv.swap i j)).Perm (List.range n) := by
  have hnodup : ((List.range n).map (Equiv.swap i j)).Nodup :=
    List.nodup_range.map (Equiv.swap i j).injective
  rw [List.perm_ext_iff_of_nodup hnodup List.nodup_range]
  intro k
  rw [List.mem_map, List.mem_range]
  constructor
  · rintro ⟨m, hm, rfl⟩
    rw [List.mem_range] at hm
    rw [Equiv.swap_apply_def]
    split_ifs <;> omega
  · intro hk
    -- an exchange undoes itself
    refine ⟨Equiv.swap i j k, ?_, Equiv.swap_apply_self i j k⟩
    rw [List.mem_range, Equiv.swap_apply_def]
    split_ifs <;> omega

/-- After an exchange of two elements, an element is that at the exchanged index. -/
theorem Value.get_exchange (v : Value) (i j k : Nat) :
    (((v.set i (v.get j)).set j (v.get i)).get k) = v.get (Equiv.swap i j k : Nat) := by
  rw [Equiv.swap_apply_def]
  -- the element at `j` is written last, and the indices may be equal
  by_cases hj : k = j
  · subst hj
    rw [Value.get_set_self, if_pos rfl]
    split_ifs with hi
    · rw [hi]
    · rfl
  · have hj' : (k : Int) ≠ j := by omega
    rw [Value.get_set_of_ne _ hj', if_neg hj]
    by_cases hi : k = i
    · subst hi
      rw [Value.get_set_self, if_pos rfl]
    · have hi' : (k : Int) ≠ i := by omega
      rw [Value.get_set_of_ne _ hi', if_neg hi]

/-- The first elements of a value are its elements at the first natural numbers. -/
theorem Value.firstElements_eq_map (v : Value) (n : Int) :
    v.firstElements n = (List.range n.toNat).map fun k : Nat => v.get k := by
  rw [Value.firstElements, List.map_eq_flatMap, List.map_eq_flatMap]
  exact List.flatMap_assoc ..

/-- An exchange of two of the first `n` elements rearranges them. -/
theorem Value.firstElements_exchange (v : Value) {i j n : Int} (hi : 0 ≤ i) (hin : i < n)
    (hj : 0 ≤ j) (hjn : j < n) :
    (((v.set i (v.get j)).set j (v.get i)).firstElements n).Perm (v.firstElements n) := by
  obtain ⟨i, rfl⟩ := Int.eq_ofNat_of_zero_le hi
  obtain ⟨j, rfl⟩ := Int.eq_ofNat_of_zero_le hj
  -- reading elements in another order is reading exchanged indices in this one
  have hperm := map_swap_range (i := i) (j := j) (n := n.toNat) (by omega) (by omega)
  have hmap := hperm.map fun k : Nat => v.get k
  rw [List.map_map] at hmap
  simpa only [Value.firstElements_eq_map, Value.get_exchange, Function.comp_def] using hmap

/-! ## The definitions -/

namespace Background

open Layout

variable {I : Interpretation} {s : State}

section

variable {lo hi x : Layout} {F : Layout → Layout} {f : Int → Int}

/-- `F h` stands for the sum of `f` from `lo` to `h`. -/
def SumsUp (I : Interpretation) (s : State) (lo : Layout) (F : Layout → Layout) (f : Int → Int) :
    Prop :=
  ∀ h : Layout, (F h).toTerm.value I s =
    .int (∑ k ∈ Finset.Icc (lo.toTerm.value I s).toInt (h.toTerm.value I s).toInt, f k)

/-- The sum over an empty range is zero. -/
theorem SumsUp.holds_empty (hF : SumsUp I s lo F f) :
    (implies (emptyRange lo hi) (eq (F hi) "0")).toTerm.Holds I s := by
  rw [holds_implies, emptyRange, holds_lt, holds_eq, hF, value_zero, Value.toInt_int,
    Value.toInt_int]
  intro h
  rw [Finset.Icc_eq_empty_of_lt h, Finset.sum_empty]

/-- The sum over a range that is not empty ends with its last summand. -/
theorem SumsUp.holds_last (hF : SumsUp I s lo F f)
    (hx : (x.toTerm.value I s).toInt = f (hi.toTerm.value I s).toInt) {r : Layout}
    (hr : r.toTerm = (app "+" [F (before hi), x]).toTerm) :
    (impliesBelow (nonemptyRange lo hi) (eq (F hi) r)).toTerm.Holds I s := by
  rw [holds_impliesBelow, nonemptyRange, holds_le, holds_eq, hr, value_plus, hF, hF, value_before,
    hx, Value.toInt_int, Value.toInt_int, Value.toInt_int, Value.toInt_int]
  intro h
  exact sum_Icc_last h f

end

/-- The facts about the sum of an array are true. -/
theorem arraySum_true : ∀ t ∈ arraySum.terms, t.TrueDefinition I.withBackground := by
  have hsum (s : State) : SumsUp I.withBackground s "lo"
      (fun h => app "sum" ["lo", h, "a"]) fun k => ((s "a").get k).toInt := by
    intro h
    simp (disch := decide) only [value_function, toTerms, Term.valueAll, value_name]
    rfl
  simp only [terms, arraySum, List.map_cons, List.map_nil, List.forall_mem_cons,
    Declaration.trueDefinition_fact]
  refine ⟨fun s => (hsum s).holds_empty, fun s => (hsum s).holds_last ?_ rfl, fun s => ?_,
    List.forall_mem_nil _⟩
  · simp (disch := decide) only [value_select, value_name]
  · -- the sum from the other end
    simp (disch := decide) only [holds_impliesBelow, nonemptyRange, holds_le, holds_eq, value_plus,
      value_after, value_select, value_function, toTerms, Term.valueAll, value_name, function,
      indices, Value.toInt_int]
    intro h
    exact sum_Icc_first h _

/-- The facts about the product of an array are true. -/
theorem arrayProd_true : ∀ t ∈ arrayProd.terms, t.TrueDefinition I.withBackground := by
  simp only [terms, arrayProd, List.map_cons, List.map_nil, List.forall_mem_cons,
    Declaration.trueDefinition_fact]
  refine ⟨fun s => ?_, fun s => ?_, fun s => ?_, List.forall_mem_nil _⟩ <;>
    simp (disch := decide) only [holds_implies, holds_impliesBelow, emptyRange, nonemptyRange,
      holds_lt, holds_le, holds_eq, value_times, value_before, value_after, value_one,
      value_select, value_function, toTerms, Term.valueAll, value_name, function, indices,
      Value.toInt_int] <;>
    intro h
  · rw [Finset.Icc_eq_empty_of_lt h, Finset.prod_empty]
  · -- the two recursions take off either end of one range
    exact prod_Icc_last h _
  · exact prod_Icc_first h _

/-- The facts about the elements of an array are true. -/
theorem arrayContains_true : ∀ t ∈ arrayContains.terms, t.TrueDefinition I.withBackground := by
  simp only [terms, arrayContains, List.map_cons, List.map_nil, List.forall_mem_cons,
    Declaration.trueDefinition_fact]
  refine ⟨Declaration.trueDefinition_relation _ _, fun s => ?_, fun s => ?_, fun s => ?_,
    List.forall_mem_nil _⟩ <;>
    simp (disch := decide) only [holds_implies, holds_impliesBelow, emptyRange, nonemptyRange,
      holds_lt, holds_le, holds_eq, holds_not, holds_iff, holds_or, holds_and,
      List.forall_mem_cons, List.not_mem_nil, false_imp_iff, implies_true, and_true, value_before,
      value_select, holds_relation, toTerm_nextLine, toTerms, Term.valueAll, value_name, relation,
      indices, Value.toInt_int, Finset.mem_Icc]
  · -- an empty range has no index
    rintro h ⟨k, hk, -⟩
    omega
  · -- an element before the last one, or the last one
    intro h
    constructor
    · rintro ⟨k, hk, heq⟩
      by_cases hlast : k = (s "hi").toInt
      · exact .inr (hlast ▸ heq)
      · exact .inl ⟨k, by omega, heq⟩
    · rintro (⟨k, hk, heq⟩ | heq)
      · exact ⟨k, by omega, heq⟩
      · exact ⟨_, ⟨h, le_refl _⟩, heq⟩
  · rintro ⟨hlo, hhi, heq⟩
    exact ⟨_, ⟨hlo, hhi⟩, heq⟩

/-- The facts about permutations are true: they are an equivalence, and an exchange is one. -/
theorem arrayPerm_true : ∀ t ∈ arrayPerm.terms, t.TrueDefinition I.withBackground := by
  simp only [terms, arrayPerm, List.map_cons, List.map_nil, List.forall_mem_cons,
    Declaration.trueDefinition_fact]
  refine ⟨Declaration.trueDefinition_relation _ _, fun s => ?_, fun s => ?_, fun s => ?_,
    fun s => ?_, List.forall_mem_nil _⟩ <;>
    simp (disch := decide) only [holds_implies, holds_impliesBelow, holds_lt, holds_le, holds_and,
      List.forall_mem_cons, List.not_mem_nil, false_imp_iff, implies_true, and_true, value_select,
      value_store, value_zero, holds_relation, toTerms, Term.valueAll, value_name, relation,
      Value.toInt_int]
  · exact List.Perm.refl _
  · intro h
    exact h.symm
  · rintro ⟨hab, hbc⟩
    exact hbc.trans hab
  · rintro ⟨hi, hin, hj, hjn⟩
    exact (s "a").firstElements_exchange hi hin hj hjn

/-- The facts about the sum of a matrix are true: it is the sum of its rows. -/
theorem matrixSum_true : ∀ t ∈ matrixSum.terms, t.TrueDefinition I.withBackground := by
  have hrow (s : State) : SumsUp I.withBackground s "lo"
      (fun h => app "msumrow" ["lo", h, "r"]) fun k => ((s "r").get k).toInt := by
    intro h
    simp (disch := decide) only [value_function, toTerms, Term.valueAll, value_name]
    rfl
  have hsum (s : State) : SumsUp I.withBackground s "ilo"
      (fun h => app "msum" ["ilo", h, "jlo", "jhi", "m"])
      fun i => ∑ j ∈ indices (s "jlo") (s "jhi"), (((s "m").get i).get j).toInt := by
    intro h
    simp (disch := decide) only [value_function, toTerms, Term.valueAll, value_name]
    rfl
  simp only [terms, matrixSum, List.map_cons, List.map_nil, List.forall_mem_cons,
    Declaration.trueDefinition_fact]
  refine ⟨fun s => (hrow s).holds_empty, fun s => (hrow s).holds_last ?_ rfl,
    fun s => (hsum s).holds_empty, fun s => (hsum s).holds_last ?_ (toTerm_nextLine _ _),
    List.forall_mem_nil _⟩
  · simp (disch := decide) only [value_select, value_name]
  · simp (disch := decide) only [value_function, toTerms, Term.valueAll, value_select, value_name,
      function, Value.toInt_int]

/-- The facts about the product of a row and a column are true. -/
theorem rowColumn_true : ∀ t ∈ rowColumn.terms, t.TrueDefinition I.withBackground := by
  have hsum (s : State) : SumsUp I.withBackground s "lo"
      (fun h => app "rowcolprod" ["lo", h, "r", "c", "a", "b"]) fun k =>
        (((s "a").get (s "r").toInt).get k).toInt * (((s "b").get k).get (s "c").toInt).toInt := by
    intro h
    simp (disch := decide) only [value_function, toTerms, Term.valueAll, value_name]
    rfl
  simp only [terms, rowColumn, List.map_cons, List.map_nil, List.forall_mem_cons,
    Declaration.trueDefinition_fact]
  refine ⟨fun s => (hsum s).holds_empty, fun s => (hsum s).holds_last ?_ (toTerm_nextLine _ _),
    List.forall_mem_nil _⟩
  simp (disch := decide) only [toTerm_nextLine, value_times, value_select, value_name,
    Value.toInt_int]

/-- The facts about the product of a row and a vector are true. -/
theorem rowVector_true : ∀ t ∈ rowVector.terms, t.TrueDefinition I.withBackground := by
  have hsum (s : State) : SumsUp I.withBackground s "lo"
      (fun h => app "rowvecprod" ["lo", h, "i", "a", "x"]) fun k =>
        (((s "a").get (s "i").toInt).get k).toInt * ((s "x").get k).toInt := by
    intro h
    simp (disch := decide) only [value_function, toTerms, Term.valueAll, value_name]
    rfl
  simp only [terms, rowVector, List.map_cons, List.map_nil, List.forall_mem_cons,
    Declaration.trueDefinition_fact]
  refine ⟨fun s => (hsum s).holds_empty, fun s => (hsum s).holds_last ?_ (toTerm_nextLine _ _),
    List.forall_mem_nil _⟩
  simp (disch := decide) only [value_times, value_select, value_name, Value.toInt_int]

/-- Every built-in definition is true. -/
theorem terms_true {b : Background} (hb : b ∈ builtin) (I : Interpretation) :
    ∀ t ∈ b.terms, t.TrueDefinition I.withBackground := by
  simp only [builtin, List.mem_cons, List.not_mem_nil, or_false] at hb
  rcases hb with rfl | rfl | rfl | rfl | rfl | rfl | rfl
  · exact arraySum_true
  · exact arrayProd_true
  · exact arrayContains_true
  · exact arrayPerm_true
  · exact matrixSum_true
  · exact rowColumn_true
  · exact rowVector_true

/-- The built-in definitions are made of plain words, so their texts can be read. -/
theorem isPlain_of_mem_builtin : ∀ b ∈ builtin, b.isPlain = true := by
  simp only [builtin, List.forall_mem_cons]
  refine ⟨?_, ?_, ?_, ?_, ?_, ?_, ?_, List.forall_mem_nil _⟩ <;> decide +kernel

end Background

/-! ## Enabled axioms -/

namespace Registry

/-- Insertion adds the new axiom and no other. -/
theorem mem_of_mem_insertSorted {a b : Axiom} {axioms : List Axiom}
    (h : b ∈ insertSorted a axioms) : b = a ∨ b ∈ axioms := by
  induction axioms with
  | nil => exact .inl (List.mem_singleton.mp h)
  | cons c cs ih =>
    rw [insertSorted] at h
    split_ifs at h
    · exact List.mem_cons.mp h
    · rcases List.mem_cons.mp h with h | h
      · exact .inl h
      · exact .inr (List.mem_cons_of_mem c h)
    · rcases List.mem_cons.mp h with rfl | h
      · exact .inr List.mem_cons_self
      · exact (ih h).imp_right (List.mem_cons_of_mem c)

/-- A registry holds the axioms that were registered, and no others. -/
theorem mem_of_mem_foldl_register {a : Axiom} {registered : List Axiom} {r : Registry}
    (h : a ∈ (registered.foldl register r).axioms) : a ∈ registered ∨ a ∈ r.axioms := by
  induction registered generalizing r with
  | nil => exact .inr h
  | cons b bs ih =>
    rw [List.foldl_cons] at h
    rcases ih h with h | h
    · exact .inl (List.mem_cons_of_mem b h)
    · rcases mem_of_mem_insertSorted h with rfl | h
      · exact .inl List.mem_cons_self
      · exact .inr h

/-- The definitions of a built-in axiom are built-in ones. -/
theorem exists_background_of_mem_builtin {a : Axiom} (h : a ∈ builtin.axioms) :
    ∃ b ∈ Background.builtin, a.definition = b.text := by
  rcases mem_of_mem_foldl_register h with h | h
  · simp only [List.mem_cons, List.not_mem_nil, or_false] at h
    rcases h with rfl | rfl | rfl | rfl | rfl | rfl | rfl <;>
      exact ⟨_, by simp [Background.builtin], rfl⟩
  · cases h

/-- Only axioms of the registry are enabled. -/
theorem mem_of_enableAfter {r : Registry} {chosen axioms : List Axiom} {names : List String}
    (h : r.enableAfter chosen names = .ok axioms) {a : Axiom} (ha : a ∈ axioms) :
    a ∈ chosen ∨ a ∈ r.axioms := by
  induction names generalizing chosen with
  | nil =>
    cases h
    exact .inl ha
  | cons name names ih =>
    rw [enableAfter] at h
    split at h
    · cases h
    · next b hb =>
      split_ifs at h
      · exact ih h
      · rcases ih h with h | h
        · rcases List.mem_append.mp h with h | h
          · exact .inl h
          · -- the axiom of the first name
            rw [List.mem_singleton.mp h]
            exact .inr (List.mem_of_find?_eq_some hb)
        · exact .inr h

/-- The text of an enabled built-in axiom is read as built-in definitions. -/
theorem exists_background_of_enable {names : List String} {axioms : List Axiom}
    (h : builtin.enable names = .ok axioms) {a : Axiom} (ha : a ∈ axioms) :
    ∃ b ∈ Background.builtin, a.definition = b.text ∧
      Term.readDefinitions a.definition = some b.terms := by
  have hbuiltin : a ∈ builtin.axioms := (mem_of_enableAfter h ha).resolve_left List.not_mem_nil
  obtain ⟨b, hb, htext⟩ := exists_background_of_mem_builtin hbuiltin
  refine ⟨b, hb, htext, ?_⟩
  rw [htext, Background.readDefinitions_text (Background.isPlain_of_mem_builtin b hb)]

/-- Enabled built-in axioms are true of what they are about. -/
theorem trueIn_of_enable {names : List String} {axioms : List Axiom}
    (h : builtin.enable names = .ok axioms) (I : Interpretation) :
    ∀ a ∈ axioms, a.TrueIn I.withBackground := by
  intro a ha
  obtain ⟨b, hb, -, hread⟩ := exists_background_of_enable h ha
  exact ⟨b.terms, hread, Background.terms_true hb I⟩

/-- The definitions of every enabled built-in axiom can be read and are true of the functions and
relations they are about. What follows from any of them is true as well, so not everything does. -/
theorem entails_true_of_enable {names : List String} {axioms : List Axiom}
    (h : builtin.enable names = .ok axioms) :
    (∀ a ∈ axioms, ∃ b ∈ Background.builtin, a.definition = b.text ∧
      Term.readDefinitions a.definition = some b.terms ∧
      ∀ I : Interpretation, ∀ t ∈ b.terms, t.TrueDefinition I.withBackground) ∧
    (∀ t, Axiom.Entails axioms t → ∀ (I : Interpretation) s, t.Holds I.withBackground s) ∧
    ¬ Axiom.Entails axioms (.atom "FALSE") := by
  have hread : ∀ a ∈ axioms, ∃ b ∈ Background.builtin, a.definition = b.text ∧
      Term.readDefinitions a.definition = some b.terms ∧
      ∀ I : Interpretation, ∀ t ∈ b.terms, t.TrueDefinition I.withBackground := by
    intro a ha
    obtain ⟨b, hb, htext, hterms⟩ := exists_background_of_enable h ha
    exact ⟨b, hb, htext, hterms, Background.terms_true hb⟩
  have htrue : ∀ t, Axiom.Entails axioms t →
      ∀ (I : Interpretation) s, t.Holds I.withBackground s :=
    fun t ht I => ht I.withBackground (trueIn_of_enable h I)
  -- consistency: there is an interpretation with the meaning of the background
  refine ⟨hread, htrue, fun hfalse => ?_⟩
  have hholds := htrue _ hfalse (.standard (fun _ _ => 0) fun _ _ => False) fun _ => .int 0
  exact absurd hholds (by simp [Term.Holds])

/-- All built-in axioms together, one of them asked for twice, are consistent. -/
theorem entails_true_of_all :
    ∃ axioms, builtin.enable ["ARRAY_SUM", "ARRAY_PROD", "ARRAY_CONTAINS", "ARRAY_PERM",
      "MATRIX_SUM", "ROW_ON_COL_DOTPROD", "ROW_ON_VEC_DOTPROD", "ARRAY_SUM"] = .ok axioms ∧
      axioms.length = 7 ∧ ¬ Axiom.Entails axioms (.atom "FALSE") := by
  obtain ⟨axioms, h, hlength⟩ : ∃ axioms, builtin.enable ["ARRAY_SUM", "ARRAY_PROD",
      "ARRAY_CONTAINS", "ARRAY_PERM", "MATRIX_SUM", "ROW_ON_COL_DOTPROD", "ROW_ON_VEC_DOTPROD",
      "ARRAY_SUM"] = .ok axioms ∧ axioms.length = 7 := ⟨_, rfl, rfl⟩
  exact ⟨axioms, h, hlength, (entails_true_of_enable h).2.2⟩

end Registry

end GuardedCommand
