import GuardedCommand.Proofs.BoundNames
import GuardedCommand.Proofs.ObligationOrder
import GuardedCommand.Proofs.Termination
import GuardedCommand.Proofs.Vocabulary

/-! # Where auxiliary names occur

Steps 5 and 6 of the rule for loops are about auxiliary names. The value of a bound that step 5
records is substituted away again before an obligation is left, in every branch that it is copied
into. A name of step 6 stays in all obligations below its step, and no other step uses it.

* `auxiliaryName_inj`: auxiliary names with different letters or numbers are different.
* `Spec.names`, `Program.names`: the names of a specification and of a program.
* `Vocabulary.ofNames`: formulas over given names, apart from one auxiliary name.
* `StabilityCase`: the obligations that come from one case of step 6.
* `auxiliary_names_of_generate`: which auxiliary names the obligations of a program mention.
-/

namespace GuardedCommand

/-! ## Auxiliary names -/

/-- The letter and the number can be read off an auxiliary name. -/
theorem auxiliaryName_inj {stem stem' : Char} {n n' : Nat} :
    auxiliaryName stem n = auxiliaryName stem' n' ↔ stem = stem' ∧ n = n' := by
  constructor
  · intro h
    have hlist := congrArg String.toList h
    simp only [auxiliaryName, String.toList_append, String.toList_ofList, List.cons_append,
      List.nil_append, List.cons.injEq, true_and] at hlist
    obtain ⟨rfl, -⟩ := hlist
    -- behind the letter the numbers are those of a supply of names
    exact ⟨rfl, FreshNames.nameAt_injective ⟨String.ofList ['@', stem], 0⟩ h⟩
  · rintro ⟨rfl, rfl⟩
    rfl

/-- No name of a supply is auxiliary. -/
theorem FreshNames.supplies_not_isAuxiliary (names : List String) :
    (FreshNames.avoiding names).Supplies (¬ IsAuxiliary ·) := by
  intro i h
  have hstem : FreshNames.baseStem.head? = some 'u' := by decide
  rw [IsAuxiliary, FreshNames.nameAt, FreshNames.avoiding, String.toList_append,
    String.toList_ofList, List.append_assoc, List.head?_append, hstem] at h
  cases h

/-! ## Names of programs and specifications -/

/-- Names mentioned by an assignment. -/
def Assign.names (m : Mention) (a : Assign) : List String :=
  a.lvalues.flatMap (Variable.names m) ++ a.rvalues.flatMap (Expr.names m)

/-- Names mentioned by a program. -/
def Program.names (m : Mention) (p : Program) : List String :=
  Statement.collectSeq (Assign.names m) (Predicate.names m) p.statements

/-- Names mentioned by a specification. -/
def Spec.names (m : Mention) (c : Spec) : List String :=
  c.precondition.names m ++ c.postcondition.names m ++
    c.loops.flatMap fun l => l.invariant.names m ++ l.bound.names m

section Collect

variable {A : Assign → Prop} {G : Predicate → Prop} {xs ys : List String}
  {ofAssign ofAssign' : Assign → List String} {ofGuard ofGuard' : Predicate → List String}

mutual

/-- Assignments and guards have a property that follows from the names that are collected. -/
theorem Statement.every_of_collect
    (hA : ∀ a, ofAssign a ⊆ xs → ofAssign' a ⊆ ys → A a)
    (hG : ∀ g, ofGuard g ⊆ xs → ofGuard' g ⊆ ys → G g) :
    ∀ a : Statement, a.collect ofAssign ofGuard ⊆ xs → a.collect ofAssign' ofGuard' ⊆ ys →
      a.Every A G
  | .abort _, _, _ | .skip _, _, _ => by simp only [Statement.Every]
  | .assign a, hx, hy => by
    simp only [Statement.collect] at hx hy
    simp only [Statement.Every]
    exact hA a hx hy
  | .cond guards bodies r, hx, hy | .loop guards bodies r, hx, hy => by
    simp only [Statement.collect, List.append_subset] at hx hy
    simp only [Statement.Every]
    refine ⟨fun g hg => hG g ?_ ?_, Statement.everyBodies_of_collect hA hG bodies hx.2 hy.2⟩
    · exact fun x hxg => hx.1 (List.mem_flatMap_of_mem hg hxg)
    · exact fun x hxg => hy.1 (List.mem_flatMap_of_mem hg hxg)

/-- A property of assignments and guards that follows from where their names lie is one of a
sequence. -/
theorem Statement.everySeq_of_collect
    (hA : ∀ a, ofAssign a ⊆ xs → ofAssign' a ⊆ ys → A a)
    (hG : ∀ g, ofGuard g ⊆ xs → ofGuard' g ⊆ ys → G g) :
    ∀ ss : List Statement, Statement.collectSeq ofAssign ofGuard ss ⊆ xs →
      Statement.collectSeq ofAssign' ofGuard' ss ⊆ ys → Statement.EverySeq A G ss
  | [], _, _ => Statement.everySeq_nil
  | a :: ss, hx, hy => by
    rw [Statement.collectSeq_cons, List.append_subset] at hx hy
    rw [Statement.everySeq_cons]
    exact ⟨Statement.every_of_collect hA hG a hx.1 hy.1,
      Statement.everySeq_of_collect hA hG ss hx.2 hy.2⟩

/-- A property of assignments and guards that follows from where their names lie is one of
bodies. -/
theorem Statement.everyBodies_of_collect
    (hA : ∀ a, ofAssign a ⊆ xs → ofAssign' a ⊆ ys → A a)
    (hG : ∀ g, ofGuard g ⊆ xs → ofGuard' g ⊆ ys → G g) :
    ∀ bs : List (List Statement), Statement.collectBodies ofAssign ofGuard bs ⊆ xs →
      Statement.collectBodies ofAssign' ofGuard' bs ⊆ ys → Statement.EveryBodies A G bs
  | [], _, _ => by simp only [Statement.EveryBodies]
  | b :: bs, hx, hy => by
    simp only [Statement.collectBodies, List.append_subset] at hx hy
    simp only [Statement.EveryBodies]
    exact ⟨Statement.everySeq_of_collect hA hG b hx.1 hy.1,
      Statement.everyBodies_of_collect hA hG bs hx.2 hy.2⟩

end

end Collect

/-! ## Formulas over given names -/

/-- Formulas whose free names satisfy `S`, except for an auxiliary name that they are about, and
whose bound variables are not auxiliary. An assignment may moreover write a whole name that does not
satisfy `S`. -/
def Vocabulary.ofNames (S : String → Prop) : Vocabulary where
  predicate k p := (∀ x ∈ p.freeNames, S x ∨ k = some x) ∧ p.Binds (¬ IsAuxiliary ·)
  bound b := (∀ x ∈ b.freeNames, S x) ∧ b.Binds (¬ IsAuxiliary ·)
  assign a :=
    (∀ v ∈ a.lvalues, (∀ x ∈ v.freeNames, S x ∨ v = .name x) ∧ v.Binds (¬ IsAuxiliary ·)) ∧
      ∀ e ∈ a.rvalues, (∀ x ∈ e.freeNames, S x) ∧ e.Binds (¬ IsAuxiliary ·)

variable {S : String → Prop} {x : String}

/-- Selectors are part of a target, which is then not a whole name. -/
theorem Variable.of_mem_selectors {v : Variable} {root : String} {selectors : List IntExpr}
    (h : v.splitTarget = .ok (root, selectors)) {i : IntExpr} (hi : i ∈ selectors) :
    (∀ x, v ≠ .name x) ∧ i.freeNames ⊆ v.freeNames ∧ ∀ K, v.Binds K → i.Binds K := by
  induction v using Variable.splitTarget.induct generalizing root selectors with
  | case1 x =>
    simp only [Variable.splitTarget] at h
    cases h
    cases hi
  | case2 b j ih =>
    simp only [Variable.splitTarget] at h
    obtain ⟨⟨x, path⟩, hb, h⟩ := exists_of_bind_eq_ok h
    cases h
    refine ⟨fun x hx => (by cases hx), ?_⟩
    rw [Variable.freeNames_select]
    simp only [Variable.Binds]
    rcases List.mem_append.mp hi with hi | hi
    · obtain ⟨-, hfree, hbinds⟩ := ih hb hi
      exact ⟨List.subset_append_of_subset_left _ hfree, fun K hv => hbinds K hv.1⟩
    · obtain rfl := List.mem_singleton.mp hi
      exact ⟨List.subset_append_right _ _, fun K hv => hv.2⟩
  | case3 b j e =>
    simp only [Variable.splitTarget] at h
    cases h

/-- The names of a map after a write are those of the map, of the selectors and of the value. -/
theorem mem_freeNames_writeThrough {current : Variable} {selectors : List IntExpr} {value : Expr}
    (hx : x ∈ (writeThrough current selectors value).freeNames) :
    x ∈ current.freeNames ∨ (∃ i ∈ selectors, x ∈ i.freeNames) ∨ x ∈ value.freeNames := by
  induction selectors generalizing current with
  | nil => exact .inr (.inr hx)
  | cons i selectors ih =>
    rw [writeThrough, Expr.freeNames_map, Variable.freeNames_store, List.mem_append,
      List.mem_append] at hx
    rcases hx with (hx | hx) | hx
    · exact .inl hx
    · exact .inr (.inl ⟨i, List.mem_cons_self, hx⟩)
    · rcases ih hx with hx | ⟨j, hj, hx⟩ | hx
      · rw [Variable.freeNames_select, List.mem_append] at hx
        exact hx.imp_right fun hx => .inl ⟨i, List.mem_cons_self, hx⟩
      · exact .inr (.inl ⟨j, List.mem_cons_of_mem _ hj, hx⟩)
      · exact .inr (.inr hx)

/-- Writing through selectors binds no more names than the parts do. -/
theorem binds_writeThrough {K : String → Prop} {current : Variable} {selectors : List IntExpr}
    {value : Expr} (hcurrent : current.Binds K) (hselectors : ∀ i ∈ selectors, i.Binds K)
    (hvalue : value.Binds K) : (writeThrough current selectors value).Binds K := by
  induction selectors generalizing current with
  | nil => exact hvalue
  | cons i selectors ih =>
    rw [List.forall_mem_cons] at hselectors
    have hselect : (Variable.select current i).Binds K := by
      simp only [Variable.Binds]
      exact ⟨hcurrent, hselectors.1⟩
    simp only [writeThrough, Expr.Binds, Variable.Binds]
    exact ⟨hcurrent, hselectors.1, ih hselect hselectors.2⟩

/-- An expression that is a variable mentions what the variable mentions. -/
theorem Expr.freeNames_of_asVariable {e : Expr} {v : Variable} (h : e.asVariable = some v) :
    v.freeNames = e.freeNames := by
  unfold Expr.asVariable at h
  split at h <;> cases h <;> rfl

/-- The value that a name receives mentions nothing new but the name itself. -/
theorem Vocabulary.of_collect {a : Assign} {ts : List Target}
    (ha : (Vocabulary.ofNames S).assign a)
    (h : Target.collect (a.lvalues.zip a.rvalues) [] = .ok ts) :
    ∀ t ∈ ts, (∀ x ∈ t.value.freeNames, S x ∨ x = t.name) ∧
      t.value.Binds (¬ IsAuxiliary ·) := by
  have hselectors : ∀ w ∈ a.lvalues.zip a.rvalues, ∀ root selectors,
      w.1.splitTarget = .ok (root, selectors) →
      ∀ i ∈ selectors, (∀ x ∈ i.freeNames, S x) ∧ i.Binds (¬ IsAuxiliary ·) := by
    intro w hw root selectors hsplit i hi
    obtain ⟨hfree, hbinds⟩ := ha.1 w.1 (List.of_mem_zip hw).1
    obtain ⟨hname, hsubset, hbinds'⟩ := Variable.of_mem_selectors hsplit hi
    refine ⟨fun x hx => ?_, hbinds' _ hbinds⟩
    exact (hfree x (hsubset hx)).resolve_right (hname x)
  -- The first write to a name starts from the name itself, every further one from the value before.
  refine Target.forall_of_collect ?_ ?_ (List.forall_mem_nil _) h
  · intro w hw root selectors hsplit
    obtain ⟨hvalue, hvalue'⟩ := ha.2 w.2 (List.of_mem_zip hw).2
    have hsel := hselectors w hw root selectors hsplit
    refine ⟨fun x hx => ?_, binds_writeThrough ?_ (fun i hi => (hsel i hi).2) hvalue'⟩
    · rcases mem_freeNames_writeThrough hx with hx | ⟨i, hi, hx⟩ | hx
      · exact .inr (List.mem_singleton.mp hx)
      · exact .inl ((hsel i hi).1 x hx)
      · exact .inl (hvalue x hx)
    · simp only [Variable.Binds]
  · intro w hw root selectors t current hsplit ht _ hcurrent
    obtain ⟨hvalue, hvalue'⟩ := ha.2 w.2 (List.of_mem_zip hw).2
    have hsel := hselectors w hw root selectors hsplit
    refine ⟨fun x hx => ?_, binds_writeThrough (Expr.binds_of_asVariable hcurrent ht.2)
      (fun i hi => (hsel i hi).2) hvalue'⟩
    rcases mem_freeNames_writeThrough hx with hx | ⟨i, hi, hx⟩ | hx
    · rw [Expr.freeNames_of_asVariable hcurrent] at hx
      exact ht.1 x hx
    · exact .inl ((hsel i hi).1 x hx)
    · exact .inl (hvalue x hx)

/-- A name after a substitution is one that takes the place of a name before it. -/
theorem Predicate.exists_of_mem_freeNames_subst {σ : Substitution} {q p : Predicate}
    (h : q.subst σ = .ok p) (hx : x ∈ p.freeNames) :
    ∃ y ∈ q.freeNames, x ∈ (σ.replacement y).freeNames := by
  have hnames : p.freeNames = σ.freeNamesOf q.freeNames :=
    (Predicate.becomes_of_subst h).freeNames_eq
  rw [hnames] at hx
  exact List.mem_flatMap.mp hx

/-- A substitution for one name leaves all other names alone. -/
theorem Substitution.replacement_single (y z : String) (e : Expr) :
    (Substitution.single y e).replacement z = if z = y then e else .map (.name z) := by
  by_cases hzy : z = y
  · rw [if_pos hzy, hzy]
    exact replacement_of_lookup (by simp [single, lookup])
  · rw [if_neg hzy]
    have hbeq : (z == y) = false := beq_false_of_ne hzy
    exact replacement_of_lookup_none (by simp [single, lookup, List.lookup_cons, hbeq])

namespace Vocabulary

/-- What is said about names passes through a substitution whose replacements mention nothing new
but the names they replace. -/
theorem predicate_of_subst {σ : Substitution} {k : Option String} {q p : Predicate}
    (hfree : ∀ y ∈ q.freeNames, ∀ x ∈ (σ.replacement y).freeNames, S x ∨ k = some x)
    (hσ : σ.Binds (¬ IsAuxiliary ·)) (hq : q.Binds (¬ IsAuxiliary ·)) (h : q.subst σ = .ok p) :
    (ofNames S).predicate k p := by
  refine ⟨fun x hx => ?_,
    Predicate.binds_of_subst FreshNames.supplies_not_isAuxiliary hσ hq h⟩
  obtain ⟨y, hy, hx⟩ := Predicate.exists_of_mem_freeNames_subst h hx
  exact hfree y hy x hx

/-- A name that is not replaced stays, and a target is replaced by the value it receives. -/
theorem free_of_replacement {ts : List Target} {y : String}
    (hts : ∀ t ∈ ts, ∀ x ∈ t.value.freeNames, S x ∨ x = t.name) :
    ∀ x ∈ ((Target.substitution ts).replacement y).freeNames, S x ∨ x = y := by
  intro x hx
  cases hlookup : (Target.substitution ts).lookup y with
  | none =>
    rw [Substitution.replacement_of_lookup_none hlookup] at hx
    exact .inr (List.mem_singleton.mp hx)
  | some e =>
    rw [Substitution.replacement_of_lookup hlookup] at hx
    obtain ⟨t, ht, heq⟩ := List.mem_map.mp (Substitution.mem_pairs_of_lookup hlookup)
    cases heq
    exact hts t ht x hx

/-- The precondition of an assignment stays among the names of the assignment and of the formula. -/
theorem assigned_ofNames {k : Option String} {a : Assign} {q p : Predicate}
    (ha : (ofNames S).assign a) (hq : (ofNames S).predicate k q) (h : a.wp q = .ok p) :
    (ofNames S).predicate k p := by
  obtain ⟨ts, hcollect, hsubst⟩ := Assign.exists_targets_of_wp h
  have hts := of_collect ha hcollect
  refine predicate_of_subst (fun y hy x hx => ?_) ?_ hq.2 hsubst
  · rcases free_of_replacement (fun t ht => (hts t ht).1) x hx with hx | rfl
    · exact .inl hx
    · exact hq.1 x hy
  · intro pair hpair
    obtain ⟨t, ht, rfl⟩ := List.mem_map.mp hpair
    exact (hts t ht).2

/-- The name under which a bound is recorded is not among the names that are left. -/
theorem recorded_ofNames {k : Option String} {y : String} {b : IntExpr} {r : TextRange}
    {q p : Predicate} (ha : (ofNames S).assign ⟨[.name y], [.int b], r⟩)
    (hq : (ofNames S).predicate k q ∨ (ofNames S).predicate (some y) q)
    (h : q.subst (.single y (.int b)) = .ok p) : (ofNames S).predicate k p := by
  obtain ⟨hfree, hbinds⟩ := ha.2 (.int b) List.mem_cons_self
  have hσ : (Substitution.single y (.int b)).Binds (¬ IsAuxiliary ·) :=
    List.forall_mem_singleton.mpr hbinds
  refine predicate_of_subst (fun z hz x hx => ?_) hσ (hq.elim And.right And.right) h
  rw [Substitution.replacement_single] at hx
  split at hx
  · exact .inl (hfree x hx)
  · next hzy =>
    obtain rfl := List.mem_singleton.mp hx
    rcases hq with hq | hq
    · exact hq.1 x hz
    · exact .inl ((hq.1 x hz).resolve_right fun heq => hzy (Option.some.inj heq).symm)

/-- Whatever a derivation builds from formulas over given names is over these names. -/
theorem closed_ofNames (S : String → Prop) : (ofNames S).Closed where
  weaken := fun k p h => by
    refine ⟨fun x hx => .inl ?_, h.2⟩
    exact (h.1 x hx).resolve_right fun hnone => (by cases hnone)
  const := fun b => by
    refine ⟨fun x hx => (by cases hx), ?_⟩
    simp only [Predicate.Binds]
  not := fun k p h => by
    refine ⟨h.1, ?_⟩
    simp only [Predicate.Binds]
    exact h.2
  binary := fun k op p q hp hq => by
    constructor
    · rw [Predicate.freeNames_binary]
      exact List.forall_mem_append.mpr ⟨hp.1, hq.1⟩
    · simp only [Predicate.Binds]
      exact ⟨hp.2, hq.2⟩
  positive := fun b hb => by
    constructor
    · rw [Predicate.freeNames_comp]
      exact List.forall_mem_append.mpr ⟨fun x hx => .inl (hb.1 x hx), fun x hx => (by cases hx)⟩
    · simp only [Predicate.Binds, IntExpr.Binds, and_true]
      exact hb.2
  decreased := fun b x hb => by
    constructor
    · rw [Predicate.freeNames_comp, IntExpr.freeNames_name]
      exact List.forall_mem_append.mpr
        ⟨fun y hy => .inl (hb.1 y hy), List.forall_mem_singleton.mpr (.inr rfl)⟩
    · simp only [IntExpr.name, Predicate.Binds, IntExpr.Binds, Variable.Binds, and_true]
      exact hb.2
  unchanged := fun b x hb => by
    constructor
    · rw [Predicate.freeNames_comp, IntExpr.freeNames_name]
      exact List.forall_mem_append.mpr
        ⟨List.forall_mem_singleton.mpr (.inr rfl), fun y hy => .inl (hb.1 y hy)⟩
    · simp only [IntExpr.name, Predicate.Binds, IntExpr.Binds, Variable.Binds, true_and]
      exact hb.2
  recording := fun b stem n r hb => by
    refine ⟨List.forall_mem_singleton.mpr ⟨?_, ?_⟩, List.forall_mem_singleton.mpr ⟨hb.1, ?_⟩⟩
    · exact List.forall_mem_singleton.mpr (.inr rfl)
    · simp only [Variable.Binds]
    · simp only [Expr.Binds]
      exact hb.2
  assigned := fun k a q p => assigned_ofNames
  recorded := fun k x b r q p => recorded_ofNames

end Vocabulary

/-! ## Obligations -/

/-- The names that occur free in a program or in its specification, apart from auxiliary ones. -/
def Spec.Mentions (spec : Spec) (program : Program) (x : String) : Prop :=
  (x ∈ spec.names .free ∨ x ∈ program.names .free) ∧ ¬ IsAuxiliary x

variable {spec : Spec} {program : Program} {o : Obligation}

/-- A formula of a specification stays among the names of the specification. -/
theorem Spec.predicate_of_names {p : Predicate} (hfree : p.freeNames ⊆ spec.names .free)
    (hall : ∀ x ∈ p.allNames, ¬ IsAuxiliary x) :
    (Vocabulary.ofNames (spec.Mentions program)).predicate none p :=
  ⟨fun x hx => .inl ⟨.inl (hfree hx), hall x (p.mem_allNames_of_free hx)⟩,
    p.binds_of_allNames hall⟩

/-- Specifications of loops are over the names of the specification. -/
theorem Spec.specified_ofNames (hspec : ∀ x ∈ spec.names .all, ¬ IsAuxiliary x) :
    (Vocabulary.ofNames (spec.Mentions program)).Specified spec.loops := by
  intro l hl
  have hmem : ∀ m x, x ∈ l.invariant.names m ++ l.bound.names m → x ∈ spec.names m :=
    fun m x hx => List.mem_append_right _ (List.mem_flatMap.mpr ⟨l, hl, hx⟩)
  have hbound : ∀ x ∈ l.bound.allNames, ¬ IsAuxiliary x := fun x hx =>
    hspec x (hmem .all x (List.mem_append_right _ hx))
  constructor
  · exact Spec.predicate_of_names (fun x hx => hmem .free x (List.mem_append_left _ hx))
      fun x hx => hspec x (hmem .all x (List.mem_append_left _ hx))
  · refine ⟨fun x hx => ⟨.inl ?_, hbound x (l.bound.mem_allNames_of_free hx)⟩,
      l.bound.binds_of_allNames hbound⟩
    exact hmem .free x (List.mem_append_right _ hx)

/-- A program is over its names. -/
theorem Program.every_ofNames (hprogram : ∀ x ∈ program.names .all, ¬ IsAuxiliary x) :
    Statement.EverySeq (Vocabulary.ofNames (spec.Mentions program)).assign
      ((Vocabulary.ofNames (spec.Mentions program)).predicate none) program.statements := by
  refine Statement.everySeq_of_collect (fun a hfree hall => ?_) (fun g hfree hall => ?_)
    program.statements (List.Subset.refl (program.names .free))
    (List.Subset.refl (program.names .all))
  · rw [Assign.names, List.append_subset] at hfree hall
    have hv : ∀ v ∈ a.lvalues, ∀ x ∈ v.allNames, ¬ IsAuxiliary x := fun v hv x hx =>
      hprogram x (hall.1 (List.mem_flatMap_of_mem hv hx))
    have he : ∀ e ∈ a.rvalues, ∀ x ∈ e.allNames, ¬ IsAuxiliary x := fun e he x hx =>
      hprogram x (hall.2 (List.mem_flatMap_of_mem he hx))
    refine ⟨fun v hmem => ⟨fun x hx => .inl ⟨.inr ?_, ?_⟩, v.binds_of_allNames (hv v hmem)⟩,
      fun e hmem => ⟨fun x hx => ⟨.inr ?_, ?_⟩, e.binds_of_allNames (he e hmem)⟩⟩
    · exact hfree.1 (List.mem_flatMap_of_mem hmem hx)
    · exact hv v hmem x (v.mem_allNames_of_free hx)
    · exact hfree.2 (List.mem_flatMap_of_mem hmem hx)
    · exact he e hmem x (e.mem_allNames_of_free hx)
  · have hg : ∀ x ∈ g.allNames, ¬ IsAuxiliary x := fun x hx => hprogram x (hall hx)
    exact ⟨fun x hx => .inl ⟨.inr (hfree hx), hg x (g.mem_allNames_of_free hx)⟩,
      g.binds_of_allNames hg⟩

namespace Vocabulary

variable {p : Predicate} {k : Option Nat} {n : Nat}

/-- A formula that is about an auxiliary name and mentions it mentions no other one. -/
theorem isAuxiliary_iff (hS : ∀ x, S x → ¬ IsAuxiliary x)
    (hp : (ofNames S).predicate (some (auxiliaryName 'T' n)) p)
    (hmem : auxiliaryName 'T' n ∈ p.freeNames) (x : String) :
    x ∈ p.freeNames ∧ IsAuxiliary x ↔ x = auxiliaryName 'T' n := by
  constructor
  · rintro ⟨hx, haux⟩
    exact (Option.some.inj ((hp.1 x hx).resolve_left fun hx => hS x hx haux)).symm
  · rintro rfl
    exact ⟨hmem, isAuxiliary_auxiliaryName 'T' n⟩

/-- The name of a recorded bound is neither free nor bound in a formula about a name of step 6. -/
theorem recorded_notMem (hS : ∀ x, S x → ¬ IsAuxiliary x)
    (hp : (ofNames S).predicate (k.map (auxiliaryName 'T')) p) :
    auxiliaryName 't' n ∉ p.allNames := by
  intro hmem
  have haux := isAuxiliary_auxiliaryName 't' n
  rcases p.free_or_of_allNames hp.2 hmem with hfree | hbound
  · rcases hp.1 _ hfree with hx | hx
    · exact hS _ hx haux
    · -- a name of step 6 has another letter
      obtain ⟨m, -, hm⟩ := Option.map_eq_some_iff.mp hx
      exact absurd (auxiliaryName_inj.mp hm).1 (by decide)
  · exact hbound haux

end Vocabulary

namespace Subgoal

variable {V : Vocabulary} {c d e : Subgoal} {specs : List LoopSpec} {path : List Nat} {n m : Nat}
  {share : List Obligation}

/-- The derivation for a program is over the names of the program and its specification. -/
theorem scoped_root_ofNames (hspec : ∀ x ∈ spec.names .all, ¬ IsAuxiliary x)
    (hprogram : ∀ x ∈ program.names .all, ¬ IsAuxiliary x) :
    (root spec program).Scoped (Vocabulary.ofNames (spec.Mentions program)) none := by
  have hpre : ∀ m, spec.precondition.names m ⊆ spec.names m := fun m x hx =>
    List.mem_append_left _ (List.mem_append_left _ hx)
  have hpost : ∀ m, spec.postcondition.names m ⊆ spec.names m := fun m x hx =>
    List.mem_append_left _ (List.mem_append_right _ hx)
  exact scoped_root (Spec.predicate_of_names (hpre .free) fun x hx => hspec x (hpre .all hx))
    (Spec.predicate_of_names (hpost .free) fun x hx => hspec x (hpost .all hx))
    (Program.every_ofNames hprogram)

/-- The obligation of a part of the program has the context of that part at its head. -/
theorem Origin.context_prefix (h : c.Origin specs o) : c.context <+: o.context := by
  cases h with
  | leaf hleaf =>
    rcases hleaf.context with hcontext | ⟨f, -, hcontext⟩
    · rw [hcontext]
    · rw [hcontext]
      exact List.prefix_append _ _
  | fact _ _ _ ho =>
    rw [ho]
    exact List.prefix_append _ _

/-- A subgoal of step 6 is about the name that it has taken. -/
theorem At.scoped_of_isStability (hV : V.Closed) (hspecs : V.Specified specs)
    (hpath : c.At specs path d) (h : c.Scoped V none) (hd : d.IsStability) :
    ∃ n, d.used = n + 1 ∧ d.Scoped V (some n) := by
  rcases hpath.scoped_cases hV hspecs h with hnone | ⟨-, path₂, e, n, -, -, hused, he, hbelow⟩
  · exact absurd hd hnone.not_isStability
  · obtain rfl := (hbelow.scoped_some hV hspecs he).2 hd
    exact ⟨n, hused, he⟩

/-- All obligations of a subgoal about an auxiliary name are about it and mention it. -/
theorem Scoped.predicate_of_result (hV : V.Closed) (hspecs : V.Specified specs)
    (h : d.Scoped V (some n)) (hd : d.result specs = .ok (share, m)) (ho : o ∈ share) :
    V.predicate (some (auxiliaryName 'T' n)) o.predicate ∧
      auxiliaryName 'T' n ∈ o.predicate.freeNames := by
  obtain ⟨path, e, -, -, hpath, -, -, horigin⟩ := exists_origin hd ho
  have he := (hpath.scoped_some hV hspecs h).1
  obtain ⟨hpredicate, -, hmem⟩ := he.predicate_of_origin hV hspecs horigin
  exact ⟨hpredicate, hmem n rfl⟩

end Subgoal

/-- The obligations `share` come from one case of step 6: from one derivation of that step, for one
inner loop and one of its branches. The case is the subgoal `d`, found at the address `path`. -/
def StabilityCase (spec : Spec) (program : Program) (path : List Nat) (d : Subgoal)
    (share : List Obligation) : Prop :=
  (Subgoal.root spec program).At spec.loops path d ∧ d.IsStability ∧
    ∃ m, d.result spec.loops = .ok (share, m)

section Generate

variable {obs : List Obligation} {path : List Nat} {d : Subgoal} {share : List Obligation}
  (hspec : ∀ x ∈ spec.names .all, ¬ IsAuxiliary x)
  (hprogram : ∀ x ∈ program.names .all, ¬ IsAuxiliary x)

include hspec hprogram

/-- Every obligation is over the names of the program and its specification and at most one name of
step 6, which it has exactly if it is below that step. -/
theorem exists_scope_of_generate (h : generate spec program = .ok obs) (ho : o ∈ obs) :
    ∃ k : Option Nat,
      (Vocabulary.ofNames (spec.Mentions program)).predicate (k.map (auxiliaryName 'T'))
        o.predicate ∧
      o.context.countP (·.IsStability) = k.toList.length ∧
      ∀ n, k = some n → auxiliaryName 'T' n ∈ o.predicate.freeNames := by
  have hV := Vocabulary.closed_ofNames (spec.Mentions program)
  have hspecs : (Vocabulary.ofNames (spec.Mentions program)).Specified spec.loops :=
    Spec.specified_ofNames hspec
  obtain ⟨used, hresult⟩ := Subgoal.exists_result_of_generate h
  obtain ⟨path, e, -, -, hpath, -, -, horigin⟩ := Subgoal.exists_origin hresult ho
  obtain ⟨k, he⟩ := hpath.scoped hV hspecs (Subgoal.scoped_root_ofNames hspec hprogram)
  exact ⟨k, he.predicate_of_origin hV hspecs horigin⟩

/-- An obligation below step 6 lies in the stretch of obligations of a case of that step. -/
theorem exists_stabilityCase (h : generate spec program = .ok obs) (ho : o ∈ obs)
    (hframe : ∃ f ∈ o.context, f.IsStability) :
    ∃ path d share, StabilityCase spec program path d share ∧ share <:+: obs ∧ o ∈ share ∧
      d.context <+: o.context := by
  have hV := Vocabulary.closed_ofNames (spec.Mentions program)
  have hspecs : (Vocabulary.ofNames (spec.Mentions program)).Specified spec.loops :=
    Spec.specified_ofNames hspec
  obtain ⟨used, hresult⟩ := Subgoal.exists_result_of_generate h
  obtain ⟨path, e, share, m, hpath, hshare, hmem, horigin⟩ := Subgoal.exists_origin hresult ho
  rcases hpath.scoped_cases hV hspecs (Subgoal.scoped_root_ofNames hspec hprogram) with hnone |
    ⟨path₁, path₂, d, n, hpath₁, hd, -, -, hbelow⟩
  · obtain ⟨-, hframes, -⟩ := hnone.predicate_of_origin hV hspecs horigin
    obtain ⟨f, hf, hstability⟩ := hframe
    exact absurd hstability (Frame.countP_isStability_eq_zero.mp hframes f hf)
  · -- the obligation is in the stretch of its subgoal, which lies in that of the case
    obtain ⟨share₁, m₁, hshare₁, hinfix, -, -⟩ := hpath₁.exists_result hresult
    obtain ⟨share₂, m₂, hshare₂, hinfix₂, -, -⟩ := hbelow.exists_result hshare₁
    obtain ⟨rfl, -⟩ : share = share₂ ∧ m = m₂ := by simpa using hshare.symm.trans hshare₂
    exact ⟨path₁, d, share₁, ⟨hpath₁, hd, m₁, hshare₁⟩, hinfix, hinfix₂.subset hmem,
      hbelow.context_prefix.trans horigin.context_prefix⟩

/-- The auxiliary name of all obligations of a case has the number that the case has taken. -/
theorem StabilityCase.exists_number (hcase : StabilityCase spec program path d share) :
    ∃ n, d.used = n + 1 ∧ ∀ o ∈ share, ∀ x,
      x ∈ o.predicate.freeNames ∧ IsAuxiliary x ↔ x = auxiliaryName 'T' n := by
  have hV := Vocabulary.closed_ofNames (spec.Mentions program)
  have hspecs : (Vocabulary.ofNames (spec.Mentions program)).Specified spec.loops :=
    Spec.specified_ofNames hspec
  obtain ⟨hpath, hd, m, hshare⟩ := hcase
  obtain ⟨n, hused, hscoped⟩ := hpath.scoped_of_isStability hV hspecs
    (Subgoal.scoped_root_ofNames hspec hprogram) hd
  refine ⟨n, hused, fun o ho => ?_⟩
  obtain ⟨hp, hmem⟩ := hscoped.predicate_of_result hV hspecs hshare ho
  exact Vocabulary.isAuxiliary_iff (fun x hx => hx.2) hp hmem

end Generate

/-- **Auxiliary names stay where they belong.** Suppose that no name of a program and of its
specification is auxiliary. Then the other free names of an obligation are free names of the program
or of its specification. There is exactly one auxiliary name among its free names if it is below
step 6, and none otherwise, and the name of a recorded bound does not occur in it at all. Every
obligation below step 6 comes from a case of that step, and obligations of different cases have no
auxiliary name in common. -/
theorem auxiliary_names_of_generate {obs : List Obligation}
    (hspec : ∀ x ∈ spec.names .all, ¬ IsAuxiliary x)
    (hprogram : ∀ x ∈ program.names .all, ¬ IsAuxiliary x)
    (h : generate spec program = .ok obs) :
    (∀ o ∈ obs,
      (∀ x ∈ o.predicate.freeNames, ¬ IsAuxiliary x →
        x ∈ spec.names .free ∨ x ∈ program.names .free) ∧
      ((∃ f ∈ o.context, f.IsStability) → ∃ n, ∀ x,
        x ∈ o.predicate.freeNames ∧ IsAuxiliary x ↔ x = auxiliaryName 'T' n) ∧
      ((∀ f ∈ o.context, ¬ f.IsStability) → ∀ x ∈ o.predicate.freeNames, ¬ IsAuxiliary x) ∧
      ∀ n, auxiliaryName 't' n ∉ o.predicate.allNames) ∧
    (∀ o ∈ obs, (∃ f ∈ o.context, f.IsStability) → ∃ path d share,
      StabilityCase spec program path d share ∧ share <:+: obs ∧ o ∈ share ∧
        d.context <+: o.context) ∧
    ∀ path path' d d' share share', StabilityCase spec program path d share →
      StabilityCase spec program path' d' share' → path ≠ path' →
      ∀ o ∈ share, ∀ o' ∈ share', ∀ x, IsAuxiliary x → x ∈ o.predicate.freeNames →
        x ∉ o'.predicate.freeNames := by
  refine ⟨fun o ho => ?_, fun o ho => exists_stabilityCase hspec hprogram h ho, ?_⟩
  · have hS : ∀ x, spec.Mentions program x → ¬ IsAuxiliary x := fun x hx => hx.2
    obtain ⟨k, hpredicate, hframes, hmem⟩ := exists_scope_of_generate hspec hprogram h ho
    refine ⟨fun x hx haux => ?_, fun hframe => ?_, fun hframe x hx haux => ?_,
      fun n => Vocabulary.recorded_notMem hS hpredicate⟩
    · rcases hpredicate.1 x hx with hx | hk
      · exact hx.1
      · obtain ⟨n, -, rfl⟩ := Option.map_eq_some_iff.mp hk
        exact absurd (isAuxiliary_auxiliaryName 'T' n) haux
    · cases k with
      | none =>
        obtain ⟨f, hf, hstability⟩ := hframe
        exact absurd hstability (Frame.countP_isStability_eq_zero.mp hframes f hf)
      | some n => exact ⟨n, Vocabulary.isAuxiliary_iff hS hpredicate (hmem n rfl)⟩
    · cases k with
      | none =>
        exact hS x ((hpredicate.1 x hx).resolve_right fun hk => (by cases hk)) haux
      | some n =>
        rw [Frame.countP_isStability_eq_zero.mpr hframe] at hframes
        cases hframes
  · intro path path' d d' share share' hcase hcase' hne o ho o' ho' x haux hx hx'
    obtain ⟨used, hresult⟩ := Subgoal.exists_result_of_generate h
    obtain ⟨n, hused, hnames⟩ := hcase.exists_number hspec hprogram
    obtain ⟨n', hused', hnames'⟩ := hcase'.exists_number hspec hprogram
    have hn : x = auxiliaryName 'T' n := (hnames o ho x).mp ⟨hx, haux⟩
    have hn' : x = auxiliaryName 'T' n' := (hnames' o' ho' x).mp ⟨hx', haux⟩
    -- the same name has the same number, and the numbers of the cases tell them apart
    obtain rfl : n = n' := (auxiliaryName_inj.mp (hn.symm.trans hn')).2
    exact hne (Subgoal.At.path_unique (Subgoal.marks_isStability spec.loops) hresult hcase.1
      hcase'.1 hcase.2.1 hcase'.2.1 (hused.trans hused'.symm))

/-- A loop with two loops inside. Step 6 has a case for each of them, with a name of its own, and
the bounds that step 5 records for the three loops leave no name behind. -/
theorem drain_auxiliary_names :
    ∃ obs, generate (drainSpec ["x", "y", "z"]) ⟨[drain "x" [drain "y" [], drain "z" []]]⟩ =
        .ok obs ∧
      (obs.filter (·.context.any (·.IsStability))).map (·.predicate.freeNames) =
        [["@T3", "x", "@T3", "x"], ["@T4", "x", "@T4", "x"]] ∧
      (∀ o ∈ obs, ∀ n, auxiliaryName 't' n ∉ o.predicate.allNames) ∧
      ∀ o ∈ obs, (∃ f ∈ o.context, f.IsStability) → ∃ path d share,
        StabilityCase (drainSpec ["x", "y", "z"]) ⟨[drain "x" [drain "y" [], drain "z" []]]⟩
          path d share ∧ o ∈ share := by
  have hsome : (generate (drainSpec ["x", "y", "z"])
      ⟨[drain "x" [drain "y" [], drain "z" []]]⟩).toOption.map (fun obs =>
        (obs.filter (·.context.any (·.IsStability))).map (·.predicate.freeNames)) =
      some [["@T3", "x", "@T3", "x"], ["@T4", "x", "@T4", "x"]] := by
    decide +kernel
  obtain ⟨obs, hobs, hnames⟩ := Option.map_eq_some_iff.mp hsome
  have hobs := eq_ok_of_toOption hobs
  obtain ⟨hall, hcases, -⟩ :=
    auxiliary_names_of_generate (by decide +kernel) (by decide +kernel) hobs
  refine ⟨obs, hobs, hnames, fun o ho => (hall o ho).2.2.2, fun o ho hframe => ?_⟩
  obtain ⟨path, d, share, hcase, -, hmem, -⟩ := hcases o ho hframe
  exact ⟨path, d, share, hcase, hmem⟩

end GuardedCommand
