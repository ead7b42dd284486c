import GuardedCommand.Proofs.Kinds
import GuardedCommand.Proofs.NormalForm
import GuardedCommand.Proofs.Shorthands
import GuardedCommand.Proofs.Vocabulary

/-! # Well-kinded formulas stay well-kinded

A formula is well-kinded if no map with a stored element is used as an integer. Maps travel in
assigned values, in arguments and in replacements, and at each place that they reach they are
wrapped anew. They never reach a place for an integer: substitution, normal forms of assignments,
the expansion of shorthands and the generation of obligations make well-kinded results of
well-kinded inputs.

* `Substitution.WellKinded`, `Assign.WellKinded`, `Spec.WellKinded`, …: the property for all that
  holds formulas.
* `Node.Becomes.wellKinded`: what a substitution makes of a formula.
* `Assign.WellKinded.of_normalize`: the normal form of an assignment.
* `Shorthands.predicate_wellKinded` and its companions: the expansion of calls.
* `Shorthands.WellKinded.of_define`: shorthands that are expanded into each other.
* `wellKinded_of_generate`: all obligations.
* `wellKinded_of_wellKinded`: all of this, and one after the other.
-/

namespace GuardedCommand

/-! ## Substitution -/

namespace Expr

variable {e : Expr} {v : Variable} {d : IntExpr}

/-- Arguments are well-kinded if each of them is. -/
theorem wellKindedAll_iff {es : List Expr} :
    Expr.wellKindedAll es = true ↔ ∀ e ∈ es, e.wellKinded = true := by
  induction es with
  | nil => simp [Expr.wellKindedAll]
  | cons e es ih => simp [Expr.wellKindedAll, ih]

/-- A well-kinded integer expression that is a variable is a well-kinded variable. -/
theorem wellKinded_of_asVariable (h : e.asVariable = some v) (he : e.wellKinded = true) :
    v.wellKinded = true := by
  unfold Expr.asVariable at h
  split at h
  · cases h
    exact he
  · cases h
    simp only [Expr.wellKinded, IntExpr.wellKinded, Bool.and_eq_true] at he
    exact he.2
  · cases h

/-- A variable made of a well-kinded expression is well-kinded. -/
theorem wellKinded_of_toMap (h : e.toMap = .ok v) (he : e.wellKinded = true) :
    v.wellKinded = true := by
  unfold Expr.toMap at h
  split at h
  · next w hw =>
    cases h
    exact wellKinded_of_asVariable hw he
  · cases h

/-- A map with a stored element does not become an integer. -/
theorem wellKinded_of_toInt (h : e.toInt = .ok d) (he : e.wellKinded = true) :
    d.wellKinded = true := by
  unfold Expr.toInt at h
  split at h
  · cases h
    exact he
  · cases h
  · next v hstore =>
    cases h
    cases v with
    | name x => rfl
    | select b i => exact he
    | store b i e => exact absurd rfl (hstore b i e)

/-- A map with a stored element stays a map as an argument. -/
theorem wellKinded_toArgument (he : e.wellKinded = true) : e.toArgument.wellKinded = true := by
  unfold Expr.toArgument
  split
  · rfl
  · exact he
  · exact he

end Expr

namespace Substitution

variable {σ τ : Substitution} {k k' : String} {parts : List String}

/-- All replacements are well-kinded. -/
def WellKinded (σ : Substitution) : Prop :=
  ∀ pair ∈ σ.pairs, pair.2.wellKinded = true

/-- The replacement of any name is well-kinded. -/
theorem WellKinded.replacement (h : σ.WellKinded) (x : String) :
    (σ.replacement x).wellKinded = true := by
  cases hx : σ.lookup x with
  | none =>
    rw [replacement_of_lookup_none hx]
    rfl
  | some e =>
    rw [replacement_of_lookup hx]
    exact h (x, e) (mem_pairs_of_lookup hx)

/-- Below a binder there are the same replacements, and perhaps a name for the bound variable. -/
theorem WellKinded.below (h : σ.WellKinded) (hk : σ.Below k parts k' τ) : τ.WellKinded := by
  have hhide : (σ.hide k).WellKinded := fun pair hpair => h pair (List.mem_of_mem_filter hpair)
  cases hk with
  | kept => exact hhide
  | renamed =>
    refine List.forall_mem_append.mpr ⟨hhide, ?_⟩
    rw [List.forall_mem_singleton]
    rfl

end Substitution

/-- The arguments of a call stay well-kinded if each of them does. -/
theorem Expr.wellKindedAll_of_zip {es es' : List Expr} (hlength : es.length = es'.length)
    (h : ∀ a ∈ es.zip es', a.1.wellKinded = true → a.2.wellKinded = true)
    (hes : Expr.wellKindedAll es = true) : Expr.wellKindedAll es' = true := by
  induction es generalizing es' with
  | nil =>
    obtain rfl := List.length_eq_zero_iff.mp hlength.symm
    rfl
  | cons e es ih =>
    cases es' with
    | nil => cases hlength
    | cons e' es' =>
      rw [List.zip_cons_cons, List.forall_mem_cons] at h
      simp only [Expr.wellKindedAll, Bool.and_eq_true] at hes ⊢
      exact ⟨h.1 hes.1, ih (Nat.succ.inj hlength) h.2 hes.2⟩

/-- What well-kinded replacements make of a well-kinded formula is well-kinded. -/
theorem Node.Becomes.wellKinded {σ : Substitution} {n n' : Node} (h : n.Becomes σ n')
    (hσ : σ.WellKinded) (hn : n.wellKinded = true) : n'.wellKinded = true := by
  -- Below a binder a name is replaced by a name or as before, so the replacements stay well-kinded.
  induction h with
  | name x => exact hσ.replacement x
  | select _ hv _ ihb ihi =>
    simp only [Node.wellKinded, Variable.wellKinded, Expr.wellKinded, Bool.and_eq_true] at hn ⊢
    exact ⟨Expr.wellKinded_of_toMap hv (ihb hσ hn.1), ihi hσ hn.2⟩
  | store _ hv _ _ ihb ihi ihe =>
    simp only [Node.wellKinded, Variable.wellKinded, Expr.wellKinded, Bool.and_eq_true] at hn ⊢
    exact ⟨⟨Expr.wellKinded_of_toMap hv (ihb hσ hn.1.1), ihi hσ hn.1.2⟩, ihe hσ hn.2⟩
  | map _ ih => exact ih hσ hn
  | argument x => exact Expr.wellKinded_toArgument (hσ.replacement x)
  | int _ _ ih => exact ih hσ hn
  | const => rfl
  | var _ he ih =>
    simp only [Node.wellKinded, IntExpr.wellKinded, Bool.and_eq_true] at hn
    exact Expr.wellKinded_of_toInt he (ih hσ hn.2)
  | negate _ ih => exact ih hσ hn
  | arith _ _ ihl ihr =>
    simp only [Node.wellKinded, IntExpr.wellKinded, Bool.and_eq_true] at hn ⊢
    exact ⟨ihl hσ hn.1, ihr hσ hn.2⟩
  | function hlength _ ih => exact Expr.wellKindedAll_of_zip hlength (fun a ha => ih a ha hσ) hn
  | fold hk _ _ ihc ihe =>
    simp only [Node.wellKinded, IntExpr.wellKinded, Bool.and_eq_true] at hn ⊢
    exact ⟨ihc (hσ.below hk) hn.1, ihe (hσ.below hk) hn.2⟩
  | count hk _ _ ihc ihp =>
    simp only [Node.wellKinded, IntExpr.wellKinded, Bool.and_eq_true] at hn ⊢
    exact ⟨ihc (hσ.below hk) hn.1, ihp (hσ.below hk) hn.2⟩
  | intSame => exact hn
  | truth => rfl
  | not _ ih => exact ih hσ hn
  | connective _ _ ihl ihr =>
    simp only [Node.wellKinded, Predicate.wellKinded, Bool.and_eq_true] at hn ⊢
    exact ⟨ihl hσ hn.1, ihr hσ hn.2⟩
  | comp _ _ ihl ihr =>
    simp only [Node.wellKinded, Predicate.wellKinded, Bool.and_eq_true] at hn ⊢
    exact ⟨ihl hσ hn.1, ihr hσ hn.2⟩
  | relation hlength _ ih => exact Expr.wellKindedAll_of_zip hlength (fun a ha => ih a ha hσ) hn
  | perm _ hv _ hw _ iha ihb ihn =>
    simp only [Node.wellKinded, Predicate.wellKinded, Bool.and_eq_true] at hn ⊢
    exact ⟨⟨Expr.wellKinded_of_toMap hv (iha hσ hn.1.1),
      Expr.wellKinded_of_toMap hw (ihb hσ hn.1.2)⟩, ihn hσ hn.2⟩
  | quant hk _ _ ihc ihp =>
    simp only [Node.wellKinded, Predicate.wellKinded, Bool.and_eq_true] at hn ⊢
    exact ⟨ihc (hσ.below hk) hn.1, ihp (hσ.below hk) hn.2⟩
  | predicateSame => exact hn

/-! ## Assignments -/

/-- All targets and values are well-kinded. -/
def Assign.WellKinded (a : Assign) : Prop :=
  (∀ v ∈ a.lvalues, v.wellKinded = true) ∧ ∀ e ∈ a.rvalues, e.wellKinded = true

/-- The selectors of a well-kinded variable are well-kinded. -/
theorem Variable.wellKinded_of_splitTarget {v : Variable} {root : String}
    {selectors : List IntExpr} (h : v.splitTarget = .ok (root, selectors))
    (hv : v.wellKinded = true) : ∀ i ∈ selectors, i.wellKinded = true := by
  induction v using Variable.splitTarget.induct generalizing root selectors with
  | case1 x =>
    simp only [Variable.splitTarget] at h
    cases h
    exact List.forall_mem_nil _
  | case2 b i ih =>
    simp only [Variable.splitTarget] at h
    obtain ⟨⟨x, path⟩, hb, h⟩ := exists_of_bind_eq_ok h
    cases h
    simp only [Variable.wellKinded, Bool.and_eq_true] at hv
    rw [List.forall_mem_append, List.forall_mem_singleton]
    exact ⟨ih hb hv.1, hv.2⟩
  | case3 b i e =>
    simp only [Variable.splitTarget] at h
    cases h

/-- A write puts maps with stored elements only where maps are. -/
theorem wellKinded_writeThrough {current : Variable} {selectors : List IntExpr} {value : Expr}
    (hcurrent : current.wellKinded = true) (hselectors : ∀ i ∈ selectors, i.wellKinded = true)
    (hvalue : value.wellKinded = true) :
    (writeThrough current selectors value).wellKinded = true := by
  induction selectors generalizing current with
  | nil => exact hvalue
  | cons i selectors ih =>
    rw [List.forall_mem_cons] at hselectors
    have hselect : (Variable.select current i).wellKinded = true := by
      simp only [Variable.wellKinded, hcurrent, hselectors.1, Bool.and_self]
    simp only [writeThrough, Expr.wellKinded, Variable.wellKinded, Bool.and_eq_true]
    exact ⟨⟨hcurrent, hselectors.1⟩, ih hselect hselectors.2⟩

namespace Assign

variable {a b : Assign}

/-- The values that the names of a well-kinded assignment receive are well-kinded. -/
theorem WellKinded.of_collect (ha : a.WellKinded) {ts : List Target}
    (h : Target.collect (a.lvalues.zip a.rvalues) [] = .ok ts) :
    ∀ t ∈ ts, t.value.wellKinded = true := by
  refine Target.forall_of_collect ?_ ?_ (List.forall_mem_nil _) h
  · intro w hw root selectors hsplit
    obtain ⟨hv, he⟩ := List.of_mem_zip hw
    exact wellKinded_writeThrough rfl
      (Variable.wellKinded_of_splitTarget hsplit (ha.1 _ hv)) (ha.2 _ he)
  · intro w hw root selectors t current hsplit ht _ hcurrent
    obtain ⟨hv, he⟩ := List.of_mem_zip hw
    exact wellKinded_writeThrough (Expr.wellKinded_of_asVariable hcurrent ht)
      (Variable.wellKinded_of_splitTarget hsplit (ha.1 _ hv)) (ha.2 _ he)

/-- The normal form of a well-kinded assignment is well-kinded. -/
theorem WellKinded.of_normalize (ha : a.WellKinded) (h : a.normalize = .ok b) :
    b.WellKinded := by
  obtain ⟨ts, hts, -, rfl⟩ := exists_targets_of_normalize h
  refine ⟨List.forall_mem_map.mpr fun _ _ => rfl, List.forall_mem_map.mpr ?_⟩
  exact ha.of_collect (collect_of_targets hts)

/-- A weakest precondition of a well-kinded assignment is well-kinded. -/
theorem WellKinded.of_wp (ha : a.WellKinded) {post pre : Predicate}
    (hpost : post.wellKinded = true) (h : a.wp post = .ok pre) : pre.wellKinded = true := by
  obtain ⟨ts, hts, hsubst⟩ := exists_targets_of_wp h
  have hσ : (Target.substitution ts).WellKinded :=
    List.forall_mem_map.mpr (ha.of_collect hts)
  exact (Predicate.becomes_of_subst hsubst).wellKinded hσ hpost

end Assign

/-! ## Programs and specifications -/

/-- All assignments and guards are well-kinded. -/
def Program.WellKinded (p : Program) : Prop :=
  Statement.EverySeq Assign.WellKinded (·.wellKinded = true) p.statements

/-- The invariant and the bound are well-kinded. -/
def LoopSpec.WellKinded (l : LoopSpec) : Prop :=
  l.invariant.wellKinded = true ∧ l.bound.wellKinded = true

/-- All predicates and bounds are well-kinded. -/
structure Spec.WellKinded (c : Spec) : Prop where
  precondition : c.precondition.wellKinded = true
  postcondition : c.postcondition.wellKinded = true
  loops : ∀ l ∈ c.loops, l.WellKinded

namespace Statement

mutual

/-- A normalized statement stays well-kinded. -/
theorem every_normalize : ∀ (a : Statement) {a' : Statement}, a.normalize = .ok a' →
    a.Every Assign.WellKinded (·.wellKinded = true) →
    a'.Every Assign.WellKinded (·.wellKinded = true)
  | .abort r, a', h, ha | .skip r, a', h, ha => by
    simp only [normalize] at h
    cases h
    exact ha
  | .assign a, a', h, ha => by
    simp only [normalize] at h
    obtain ⟨b, hb, h⟩ := exists_of_bind_eq_ok h
    cases h
    simp only [Every] at ha ⊢
    exact ha.of_normalize hb
  | .cond guards bodies r, a', h, ha | .loop guards bodies r, a', h, ha => by
    simp only [normalize] at h
    obtain ⟨bodies', hbodies, h⟩ := exists_of_bind_eq_ok h
    cases h
    simp only [Every] at ha ⊢
    exact ⟨ha.1, everyBodies_normalizeBodies bodies hbodies ha.2⟩

/-- A normalized sequence stays well-kinded. -/
theorem everySeq_normalizeSeq : ∀ (ss : List Statement) {ss' : List Statement},
    normalizeSeq ss = .ok ss' → EverySeq Assign.WellKinded (·.wellKinded = true) ss →
    EverySeq Assign.WellKinded (·.wellKinded = true) ss'
  | [], ss', h, _ => by
    simp only [normalizeSeq] at h
    cases h
    exact everySeq_nil
  | a :: ss, ss', h, hss => by
    simp only [normalizeSeq] at h
    obtain ⟨b, hb, h⟩ := exists_of_bind_eq_ok h
    obtain ⟨ts, hts, h⟩ := exists_of_bind_eq_ok h
    cases h
    rw [everySeq_cons] at hss ⊢
    exact ⟨every_normalize a hb hss.1, everySeq_normalizeSeq ss hts hss.2⟩

/-- Normalized bodies stay well-kinded. -/
theorem everyBodies_normalizeBodies : ∀ (bs : List (List Statement))
    {bs' : List (List Statement)}, normalizeBodies bs = .ok bs' →
    EveryBodies Assign.WellKinded (·.wellKinded = true) bs →
    EveryBodies Assign.WellKinded (·.wellKinded = true) bs'
  | [], bs', h, hbs => by
    simp only [normalizeBodies] at h
    cases h
    exact hbs
  | b :: bs, bs', h, hbs => by
    simp only [normalizeBodies] at h
    obtain ⟨c, hc, h⟩ := exists_of_bind_eq_ok h
    obtain ⟨cs, hcs, h⟩ := exists_of_bind_eq_ok h
    cases h
    simp only [EveryBodies] at hbs ⊢
    exact ⟨everySeq_normalizeSeq b hc hbs.1, everyBodies_normalizeBodies bs hcs hbs.2⟩

end

end Statement

/-- A normalized program stays well-kinded. -/
theorem Program.WellKinded.of_normalize {p q : Program} (hp : p.WellKinded)
    (h : p.normalize = .ok q) : q.WellKinded := by
  obtain ⟨ss, hss, h⟩ := exists_of_bind_eq_ok h
  cases h
  exact Statement.everySeq_normalizeSeq p.statements hss hp

/-! ## Expansion of shorthands -/

/-- The predicate or the integer expression is well-kinded. -/
def ShorthandBody.WellKinded : ShorthandBody → Prop
  | .predicate p => p.wellKinded = true
  | .int e => e.wellKinded = true

/-- All bodies are well-kinded. -/
def Shorthands.WellKinded (table : Shorthands) : Prop :=
  ∀ d ∈ table.defs, d.body.WellKinded

/-- Well-kinded arguments give a well-kinded substitution. -/
theorem Shorthand.wellKinded_of_arguments {d : Shorthand} {args : List Expr} {σ : Substitution}
    (h : d.arguments args = .ok σ) (hargs : ∀ e ∈ args, e.wellKinded = true) : σ.WellKinded := by
  obtain ⟨-, rfl⟩ := Shorthand.eq_of_arguments h
  intro pair hpair
  exact hargs pair.2 (List.of_mem_zip hpair).2

namespace Shorthands

variable {table : Shorthands} {f : String} {args : List Expr}

/-- An expanded call of a relation is well-kinded. -/
theorem callPredicate_wellKinded (htable : table.WellKinded) {p : Predicate}
    (h : table.callPredicate f args = .ok p) (hargs : ∀ e ∈ args, e.wellKinded = true) :
    p.wellKinded = true := by
  have hcall : (Predicate.call f args).wellKinded = true := Expr.wellKindedAll_iff.mpr hargs
  unfold callPredicate at h
  split at h
  · next d hd =>
    have hbody := htable d (List.mem_of_find?_eq_some hd)
    split at h
    · next q hq =>
      rw [hq] at hbody
      obtain ⟨σ, hσ, h⟩ := exists_of_bind_eq_ok h
      have hbecomes := Predicate.becomes_of_subst (eq_ok_of_mapError_eq_ok h)
      exact hbecomes.wellKinded (Shorthand.wellKinded_of_arguments hσ hargs) hbody
    · cases h
      exact hcall
  · cases h
    exact hcall

/-- An expanded call of a function is well-kinded. -/
theorem callInt_wellKinded (htable : table.WellKinded) {e : IntExpr}
    (h : table.callInt f args = .ok e) (hargs : ∀ e ∈ args, e.wellKinded = true) :
    e.wellKinded = true := by
  have hcall : (IntExpr.call f args).wellKinded = true := Expr.wellKindedAll_iff.mpr hargs
  unfold callInt at h
  split at h
  · next d hd =>
    have hbody := htable d (List.mem_of_find?_eq_some hd)
    split at h
    · next q hq =>
      rw [hq] at hbody
      obtain ⟨σ, hσ, h⟩ := exists_of_bind_eq_ok h
      have hbecomes := IntExpr.becomes_of_subst (eq_ok_of_mapError_eq_ok h)
      exact hbecomes.wellKinded (Shorthand.wellKinded_of_arguments hσ hargs) hbody
    · cases h
      exact hcall
  · cases h
    exact hcall

mutual

/-- Expansion makes no map with a stored element of another variable. -/
theorem var_wellKinded (htable : table.WellKinded) :
    ∀ (v : Variable) {v' : Variable}, table.var v = .ok v' → v.wellKinded = true →
      v'.wellKinded = true ∧ v'.isStore = v.isStore
  | .name x, v', h, _ => by
    simp only [var] at h
    cases h
    exact ⟨rfl, rfl⟩
  | .select b i, v', h, hv => by
    simp only [var] at h
    obtain ⟨b', hb, h⟩ := exists_of_bind_eq_ok h
    obtain ⟨i', hi, h⟩ := exists_of_bind_eq_ok h
    cases h
    simp only [Variable.wellKinded, Bool.and_eq_true] at hv ⊢
    exact ⟨⟨(var_wellKinded htable b hb hv.1).1, int_wellKinded htable i hi hv.2⟩, rfl⟩
  | .store b i e, v', h, hv => by
    simp only [var] at h
    obtain ⟨b', hb, h⟩ := exists_of_bind_eq_ok h
    obtain ⟨i', hi, h⟩ := exists_of_bind_eq_ok h
    obtain ⟨e', he, h⟩ := exists_of_bind_eq_ok h
    cases h
    simp only [Variable.wellKinded, Bool.and_eq_true] at hv ⊢
    exact ⟨⟨⟨(var_wellKinded htable b hb hv.1.1).1, int_wellKinded htable i hi hv.1.2⟩,
      expr_wellKinded htable e he hv.2⟩, rfl⟩

/-- An expanded expression stays well-kinded. -/
theorem expr_wellKinded (htable : table.WellKinded) :
    ∀ (e : Expr) {e' : Expr}, table.expr e = .ok e' → e.wellKinded = true →
      e'.wellKinded = true
  | .map v, e', h, he => by
    simp only [expr] at h
    obtain ⟨v', hv, h⟩ := exists_of_bind_eq_ok h
    cases h
    exact (var_wellKinded htable v hv he).1
  | .int e, e', h, he => by
    simp only [expr] at h
    obtain ⟨d, hd, h⟩ := exists_of_bind_eq_ok h
    cases h
    exact int_wellKinded htable e hd he

/-- An expanded integer expression stays well-kinded. -/
theorem int_wellKinded (htable : table.WellKinded) :
    ∀ (e : IntExpr) {e' : IntExpr}, table.int e = .ok e' → e.wellKinded = true →
      e'.wellKinded = true
  | .const c, e', h, _ => by
    simp only [int] at h
    cases h
    rfl
  | .var v, e', h, he => by
    simp only [int] at h
    obtain ⟨v', hv, h⟩ := exists_of_bind_eq_ok h
    cases h
    simp only [IntExpr.wellKinded, Bool.and_eq_true] at he ⊢
    obtain ⟨hkind, hstore⟩ := var_wellKinded htable v hv he.2
    rw [hstore]
    exact ⟨he.1, hkind⟩
  | .negate e, e', h, he => by
    simp only [int] at h
    obtain ⟨d, hd, h⟩ := exists_of_bind_eq_ok h
    cases h
    simp only [IntExpr.wellKinded] at he ⊢
    exact int_wellKinded htable e hd he
  | .binary op l r, e', h, he => by
    simp only [int] at h
    obtain ⟨l', hl, h⟩ := exists_of_bind_eq_ok h
    obtain ⟨r', hr, h⟩ := exists_of_bind_eq_ok h
    cases h
    simp only [IntExpr.wellKinded, Bool.and_eq_true] at he ⊢
    exact ⟨int_wellKinded htable l hl he.1, int_wellKinded htable r hr he.2⟩
  | .call f args, e', h, he => by
    simp only [int] at h
    obtain ⟨args', hargs, h⟩ := exists_of_bind_eq_ok h
    exact callInt_wellKinded htable h (exprs_wellKinded htable args hargs he)
  | .fold op k c e, e', h, he => by
    simp only [int] at h
    obtain ⟨c', hc, h⟩ := exists_of_bind_eq_ok h
    obtain ⟨d, hd, h⟩ := exists_of_bind_eq_ok h
    cases h
    simp only [IntExpr.wellKinded, Bool.and_eq_true] at he ⊢
    exact ⟨predicate_wellKinded htable c hc he.1, int_wellKinded htable e hd he.2⟩
  | .count k c p, e', h, he => by
    simp only [int] at h
    obtain ⟨c', hc, h⟩ := exists_of_bind_eq_ok h
    obtain ⟨q, hq, h⟩ := exists_of_bind_eq_ok h
    cases h
    simp only [IntExpr.wellKinded, Bool.and_eq_true] at he ⊢
    exact ⟨predicate_wellKinded htable c hc he.1, predicate_wellKinded htable p hq he.2⟩

/-- An expanded predicate stays well-kinded. -/
theorem predicate_wellKinded (htable : table.WellKinded) :
    ∀ (p : Predicate) {p' : Predicate}, table.predicate p = .ok p' → p.wellKinded = true →
      p'.wellKinded = true
  | .const b, p', h, _ => by
    simp only [predicate] at h
    cases h
    rfl
  | .not p, p', h, hp => by
    simp only [predicate] at h
    obtain ⟨q, hq, h⟩ := exists_of_bind_eq_ok h
    cases h
    simp only [Predicate.wellKinded] at hp ⊢
    exact predicate_wellKinded htable p hq hp
  | .binary op l r, p', h, hp => by
    simp only [predicate] at h
    obtain ⟨l', hl, h⟩ := exists_of_bind_eq_ok h
    obtain ⟨r', hr, h⟩ := exists_of_bind_eq_ok h
    cases h
    simp only [Predicate.wellKinded, Bool.and_eq_true] at hp ⊢
    exact ⟨predicate_wellKinded htable l hl hp.1, predicate_wellKinded htable r hr hp.2⟩
  | .comp op l r, p', h, hp => by
    simp only [predicate] at h
    obtain ⟨l', hl, h⟩ := exists_of_bind_eq_ok h
    obtain ⟨r', hr, h⟩ := exists_of_bind_eq_ok h
    cases h
    simp only [Predicate.wellKinded, Bool.and_eq_true] at hp ⊢
    exact ⟨int_wellKinded htable l hl hp.1, int_wellKinded htable r hr hp.2⟩
  | .call f args, p', h, hp => by
    simp only [predicate] at h
    obtain ⟨args', hargs, h⟩ := exists_of_bind_eq_ok h
    exact callPredicate_wellKinded htable h (exprs_wellKinded htable args hargs hp)
  | .perm a b n, p', h, hp => by
    simp only [predicate] at h
    obtain ⟨a', ha, h⟩ := exists_of_bind_eq_ok h
    obtain ⟨b', hb, h⟩ := exists_of_bind_eq_ok h
    obtain ⟨n', hn, h⟩ := exists_of_bind_eq_ok h
    cases h
    simp only [Predicate.wellKinded, Bool.and_eq_true] at hp ⊢
    exact ⟨⟨(var_wellKinded htable a ha hp.1.1).1, (var_wellKinded htable b hb hp.1.2).1⟩,
      int_wellKinded htable n hn hp.2⟩
  | .quant q k c p, p', h, hp => by
    simp only [predicate] at h
    obtain ⟨c', hc, h⟩ := exists_of_bind_eq_ok h
    obtain ⟨r, hr, h⟩ := exists_of_bind_eq_ok h
    cases h
    simp only [Predicate.wellKinded, Bool.and_eq_true] at hp ⊢
    exact ⟨predicate_wellKinded htable c hc hp.1, predicate_wellKinded htable p hr hp.2⟩

/-- Expanded arguments stay well-kinded. -/
theorem exprs_wellKinded (htable : table.WellKinded) :
    ∀ (es : List Expr) {es' : List Expr}, table.exprs es = .ok es' →
      Expr.wellKindedAll es = true → ∀ e ∈ es', e.wellKinded = true
  | [], es', h, _ => by
    simp only [exprs] at h
    cases h
    exact List.forall_mem_nil _
  | e :: es, es', h, hes => by
    simp only [exprs] at h
    obtain ⟨e', he, h⟩ := exists_of_bind_eq_ok h
    obtain ⟨ds, hds, h⟩ := exists_of_bind_eq_ok h
    cases h
    simp only [Expr.wellKindedAll, Bool.and_eq_true] at hes
    exact List.forall_mem_cons.mpr
      ⟨expr_wellKinded htable e he hes.1, exprs_wellKinded htable es hds hes.2⟩

end

/-- What an expansion gives for a list is well-kinded if it is so for each item. -/
theorem forall_of_mapM {α β : Type} {expand : α → Except ShorthandError β} {P : α → Prop}
    {Q : β → Prop} {as : List α} {bs : List β} (hexpand : ∀ a b, expand a = .ok b → P a → Q b)
    (h : as.mapM expand = .ok bs) (has : ∀ a ∈ as, P a) : ∀ b ∈ bs, Q b := by
  have hforall := forall₂_of_mapM_eq_ok h
  clear h
  induction hforall with
  | nil => exact List.forall_mem_nil _
  | cons hab _ ih =>
    rw [List.forall_mem_cons] at has ⊢
    exact ⟨hexpand _ _ hab has.1, ih has.2⟩

/-- An expanded specification stays well-kinded. -/
theorem spec_wellKinded (htable : table.WellKinded) {c d : Spec} (h : table.spec c = .ok d)
    (hc : c.WellKinded) : d.WellKinded := by
  obtain ⟨pre, hpre, h⟩ := exists_of_bind_eq_ok h
  obtain ⟨post, hpost, h⟩ := exists_of_bind_eq_ok h
  obtain ⟨loops, hloops, h⟩ := exists_of_bind_eq_ok h
  cases h
  refine ⟨predicate_wellKinded htable _ hpre hc.precondition,
    predicate_wellKinded htable _ hpost hc.postcondition, ?_⟩
  refine forall_of_mapM (fun l l' hl hkind => ?_) hloops hc.loops
  obtain ⟨invariant, hinvariant, hl⟩ := exists_of_bind_eq_ok hl
  obtain ⟨bound, hbound, hl⟩ := exists_of_bind_eq_ok hl
  cases hl
  exact ⟨predicate_wellKinded htable _ hinvariant hkind.1,
    int_wellKinded htable _ hbound hkind.2⟩

/-- An expanded assignment stays well-kinded. -/
theorem assign_wellKinded (htable : table.WellKinded) {a b : Assign}
    (h : table.assign a = .ok b) (ha : a.WellKinded) : b.WellKinded := by
  obtain ⟨lvalues, hlvalues, h⟩ := exists_of_bind_eq_ok h
  obtain ⟨rvalues, hrvalues, h⟩ := exists_of_bind_eq_ok h
  cases h
  constructor
  · exact forall_of_mapM (fun v v' hv hkind => (var_wellKinded htable v hv hkind).1) hlvalues ha.1
  · exact forall_of_mapM (fun e e' he hkind => expr_wellKinded htable e he hkind) hrvalues ha.2

/-- Expanded guards stay well-kinded. -/
theorem guards_wellKinded (htable : table.WellKinded) {gs gs' : List Predicate}
    (h : gs.mapM table.predicate = .ok gs') (hgs : ∀ g ∈ gs, g.wellKinded = true) :
    ∀ g ∈ gs', g.wellKinded = true :=
  forall_of_mapM (fun g _ hg hkind => predicate_wellKinded htable g hg hkind) h hgs

mutual

/-- An expanded statement stays well-kinded. -/
theorem statement_wellKinded (htable : table.WellKinded) :
    ∀ (a : Statement) {a' : Statement}, table.statement a = .ok a' →
      a.Every Assign.WellKinded (·.wellKinded = true) →
      a'.Every Assign.WellKinded (·.wellKinded = true)
  | .abort r, a', h, ha | .skip r, a', h, ha => by
    simp only [statement] at h
    cases h
    exact ha
  | .assign a, a', h, ha => by
    simp only [statement] at h
    obtain ⟨b, hb, h⟩ := exists_of_bind_eq_ok h
    cases h
    simp only [Statement.Every] at ha ⊢
    exact assign_wellKinded htable hb ha
  | .cond guards bodies r, a', h, ha | .loop guards bodies r, a', h, ha => by
    simp only [statement] at h
    obtain ⟨guards', hguards, h⟩ := exists_of_bind_eq_ok h
    obtain ⟨bodies', hbodies, h⟩ := exists_of_bind_eq_ok h
    cases h
    simp only [Statement.Every] at ha ⊢
    exact ⟨guards_wellKinded htable hguards ha.1, bodies_wellKinded htable bodies hbodies ha.2⟩

/-- An expanded sequence stays well-kinded. -/
theorem statements_wellKinded (htable : table.WellKinded) :
    ∀ (ss : List Statement) {ss' : List Statement}, table.statements ss = .ok ss' →
      Statement.EverySeq Assign.WellKinded (·.wellKinded = true) ss →
      Statement.EverySeq Assign.WellKinded (·.wellKinded = true) ss'
  | [], ss', h, hss => by
    simp only [statements] at h
    cases h
    exact hss
  | a :: ss, ss', h, hss => by
    simp only [statements] at h
    obtain ⟨b, hb, h⟩ := exists_of_bind_eq_ok h
    obtain ⟨ts, hts, h⟩ := exists_of_bind_eq_ok h
    cases h
    rw [Statement.everySeq_cons] at hss ⊢
    exact ⟨statement_wellKinded htable a hb hss.1, statements_wellKinded htable ss hts hss.2⟩

/-- Expanded bodies stay well-kinded. -/
theorem bodies_wellKinded (htable : table.WellKinded) :
    ∀ (bs : List (List Statement)) {bs' : List (List Statement)}, table.bodies bs = .ok bs' →
      Statement.EveryBodies Assign.WellKinded (·.wellKinded = true) bs →
      Statement.EveryBodies Assign.WellKinded (·.wellKinded = true) bs'
  | [], bs', h, hbs => by
    simp only [bodies] at h
    cases h
    exact hbs
  | b :: bs, bs', h, hbs => by
    simp only [bodies] at h
    obtain ⟨c, hc, h⟩ := exists_of_bind_eq_ok h
    obtain ⟨cs, hcs, h⟩ := exists_of_bind_eq_ok h
    cases h
    simp only [Statement.EveryBodies] at hbs ⊢
    exact ⟨statements_wellKinded htable b hc hbs.1, bodies_wellKinded htable bs hcs hbs.2⟩

end

/-- An expanded program stays well-kinded. -/
theorem program_wellKinded (htable : table.WellKinded) {p q : Program}
    (h : table.program p = .ok q) (hp : p.WellKinded) : q.WellKinded := by
  obtain ⟨ss, hss, h⟩ := exists_of_bind_eq_ok h
  cases h
  exact statements_wellKinded htable p.statements hss hp

/-! ## Shorthands that are expanded into each other -/

/-- An expanded shorthand stays well-kinded. -/
theorem shorthand_wellKinded (htable : table.WellKinded) {c d : Shorthand}
    (h : table.shorthand c = .ok d) (hc : c.body.WellKinded) : d.body.WellKinded := by
  obtain ⟨body, hbody, h⟩ := exists_of_bind_eq_ok h
  cases h
  cases hd : c.body with
  | predicate p =>
    rw [hd] at hbody hc
    obtain ⟨q, hq, hbody⟩ := exists_of_bind_eq_ok hbody
    cases hbody
    exact predicate_wellKinded htable p hq hc
  | int e =>
    rw [hd] at hbody hc
    obtain ⟨e', he, hbody⟩ := exists_of_bind_eq_ok hbody
    cases hbody
    exact int_wellKinded htable e he hc

/-- One round of expansion keeps a table well-kinded. -/
theorem WellKinded.of_round (htable : table.WellKinded) {table' : Shorthands}
    (h : table.round = .ok table') : table'.WellKinded := by
  obtain ⟨defs, hdefs, h⟩ := exists_of_bind_eq_ok h
  cases h
  exact forall_of_mapM (fun c d hd hc => shorthand_wellKinded htable hd hc) hdefs htable

/-- Rounds of expansion keep a table well-kinded. -/
theorem WellKinded.of_rounds {n : Nat} (htable : table.WellKinded) {table' : Shorthands}
    (h : rounds n table = .ok table') : table'.WellKinded := by
  induction n generalizing table with
  | zero =>
    cases h
    exact htable
  | succ n ih =>
    obtain ⟨between, hround, h⟩ := exists_of_bind_eq_ok h
    exact ih (htable.of_round hround) h

/-- Definitions with well-kinded bodies give well-kinded shorthands. -/
theorem WellKinded.of_define {defs : List ShorthandDef}
    (hdefs : ∀ d ∈ defs, ∀ body, ShorthandBody.ofText? d.definition = some body →
      body.WellKinded)
    (h : define defs = .ok table) : table.WellKinded := by
  obtain ⟨given, hgiven, h⟩ := exists_of_bind_eq_ok h
  have htable : Shorthands.WellKinded ⟨given⟩ := by
    refine forall_of_mapM (fun d c hc hd => ?_) hgiven hdefs
    exact hd c.body (ShorthandDef.gives_of_check hc).1.body
  exact htable.of_rounds h

end Shorthands

/-! ## Obligations -/

/-- Well-kinded formulas, whatever names they are about. -/
def Vocabulary.wellKinded : Vocabulary where
  predicate _ p := p.wellKinded = true
  bound b := b.wellKinded = true
  assign := Assign.WellKinded

/-- The well-kinded predicates are closed under what the generator does with predicates. -/
theorem Vocabulary.closed_wellKinded : Vocabulary.wellKinded.Closed where
  weaken _ _ hp := hp
  const _ := rfl
  not _ _ hp := hp
  binary _ _ p q hp hq := by
    change (p.wellKinded && q.wellKinded) = true
    rw [hp, hq, Bool.and_self]
  positive b hb := by
    change (b.wellKinded && true) = true
    rw [hb, Bool.and_self]
  decreased b x hb := by
    change (b.wellKinded && true) = true
    rw [hb, Bool.and_self]
  unchanged b x hb := by
    change (true && b.wellKinded) = true
    rw [hb, Bool.and_self]
  recording b stem n r hb :=
    ⟨List.forall_mem_singleton.mpr rfl, List.forall_mem_singleton.mpr hb⟩
  assigned _ a q p ha hq h := Assign.WellKinded.of_wp ha hq h
  recorded k x b r q p ha hq h := by
    have hσ : (Substitution.single x (.int b)).WellKinded :=
      List.forall_mem_singleton.mpr (ha.2 _ List.mem_cons_self)
    have hq : q.wellKinded = true := hq.elim id id
    exact (Predicate.becomes_of_subst h).wellKinded hσ hq

/-- The obligations of a well-kinded program with a well-kinded specification are well-kinded. -/
theorem wellKinded_of_generate {spec : Spec} {program : Program} {obs : List Obligation}
    (hspec : spec.WellKinded) (hprogram : program.WellKinded)
    (h : generate spec program = .ok obs) : ∀ o ∈ obs, o.predicate.wellKinded = true := by
  obtain ⟨n, hresult⟩ := Subgoal.exists_result_of_generate h
  have hroot := Subgoal.scoped_root (V := .wellKinded) hspec.precondition hspec.postcondition
    hprogram
  intro o ho
  obtain ⟨path, d, _, _, hpath, -, -, horigin⟩ := Subgoal.exists_origin hresult ho
  obtain ⟨k, hd⟩ := hpath.scoped Vocabulary.closed_wellKinded hspec.loops hroot
  exact (hd.predicate_of_origin Vocabulary.closed_wellKinded hspec.loops horigin).1

/-- Substitution, normal forms of assignments and the expansion of calls keep formulas well-kinded.
If the bodies of all definitions, a specification and a program are well-kinded, so are the
shorthands that the definitions give, the expanded specification, the expanded program, its normal
form, and all obligations of either. -/
theorem wellKinded_of_wellKinded :
    (∀ (σ : Substitution) (n n' : Node), σ.WellKinded → n.wellKinded = true →
      n.subst σ = .ok n' → n'.wellKinded = true) ∧
    (∀ a b : Assign, a.WellKinded → a.normalize = .ok b → b.WellKinded) ∧
    (∀ table : Shorthands, table.WellKinded →
      (∀ p p', p.wellKinded = true → table.predicate p = .ok p' → p'.wellKinded = true) ∧
      ∀ e e', e.wellKinded = true → table.int e = .ok e' → e'.wellKinded = true) ∧
    ∀ (defs : List ShorthandDef) (table : Shorthands),
      (∀ d ∈ defs, ∀ body, ShorthandBody.ofText? d.definition = some body →
        body.WellKinded) →
      Shorthands.define defs = .ok table →
      table.WellKinded ∧
      ∀ (spec spec' : Spec) (program program' : Program),
        spec.WellKinded → program.WellKinded →
        table.spec spec = .ok spec' → table.program program = .ok program' →
        spec'.WellKinded ∧ program'.WellKinded ∧
        (∀ obs, generate spec' program' = .ok obs → ∀ o ∈ obs, o.predicate.wellKinded = true) ∧
        ∀ normal, program'.normalize = .ok normal →
          normal.WellKinded ∧
          ∀ obs, generate spec' normal = .ok obs → ∀ o ∈ obs, o.predicate.wellKinded = true := by
  refine ⟨fun σ n n' hσ hn h => (Node.becomes_of_subst h).wellKinded hσ hn,
    fun a b ha h => ha.of_normalize h, fun table htable => ⟨?_, ?_⟩, ?_⟩
  · exact fun p p' hp h => Shorthands.predicate_wellKinded htable p h hp
  · exact fun e e' he h => Shorthands.int_wellKinded htable e h he
  · intro defs table hdefs hdefine
    have htable := Shorthands.WellKinded.of_define hdefs hdefine
    refine ⟨htable, fun spec spec' program program' hspec hprogram hs hp => ?_⟩
    have hspec' := Shorthands.spec_wellKinded htable hs hspec
    have hprogram' := Shorthands.program_wellKinded htable hp hprogram
    refine ⟨hspec', hprogram', fun obs h => wellKinded_of_generate hspec' hprogram' h,
      fun normal hnormal => ⟨hprogram'.of_normalize hnormal, fun obs h => ?_⟩⟩
    exact wellKinded_of_generate hspec' (hprogram'.of_normalize hnormal) h

/-! ## A sample -/

namespace Shorthands.Sample

/-- The first element of `b` is copied to the place that it names. -/
def copy : Program :=
  ⟨[.assign ⟨[.select (.name "b") (.call "first" [.map (.name "b")])],
    [.int (.call "first" [.map (.name "b")])], .zero⟩]⟩

/-- After that the first element is found below the place that it names. -/
def copySpec : Spec where
  precondition := .call "below" [.int (.call "first" [.map (.name "b")])]
  postcondition :=
    .call "contains" [.map (.name "b"), .int (.call "first" [.map (.name "b")])]
  loops := []

/-- The definitions, the specification and the program are accepted. -/
theorem exists_copy : ∃ table spec program normal obs, define defs = .ok table ∧
    table.spec copySpec = .ok spec ∧ table.program copy = .ok program ∧
    program.normalize = .ok normal ∧ generate spec program = .ok obs := by
  have hsome : ((rounds 2 ⟨given⟩).toOption.bind fun table =>
      (table.spec copySpec).toOption.bind fun spec =>
        (table.program copy).toOption.bind fun program =>
          program.normalize.toOption.bind fun normal =>
            (generate spec program).toOption.map fun obs =>
              (table, spec, program, normal, obs)).isSome = true := by
    decide +kernel
  obtain ⟨result, hresult⟩ := Option.isSome_iff_exists.mp hsome
  simp only [Option.bind_eq_some_iff, Option.map_eq_some_iff] at hresult
  obtain ⟨table, htable, spec, hspec, program, hprogram, normal, hnormal, obs, hobs, -⟩ := hresult
  refine ⟨table, spec, program, normal, obs, ?_, eq_ok_of_toOption hspec,
    eq_ok_of_toOption hprogram, eq_ok_of_toOption hnormal, eq_ok_of_toOption hobs⟩
  rw [define, check_defs]
  exact eq_ok_of_toOption htable

/-- The bodies of the definitions are well-kinded. -/
theorem wellKinded_of_mem_defs : ∀ d ∈ defs, ∀ body,
    ShorthandBody.ofText? d.definition = some body → body.WellKinded := by
  intro d hd body hbody
  simp only [defs, List.mem_cons, List.not_mem_nil, or_false] at hd
  rcases hd with rfl | rfl | rfl
  · obtain rfl := Option.some.inj (read_contains.symm.trans hbody)
    exact (by decide +kernel : contains.wellKinded = true)
  · obtain rfl := Option.some.inj (read_first.symm.trans hbody)
    exact (by decide +kernel : first.wellKinded = true)
  · obtain rfl := Option.some.inj (read_below.symm.trans hbody)
    exact (by decide +kernel : below.wellKinded = true)

/-- Copying an element makes a map with a stored element; no obligation uses it as an integer. -/
theorem copy_wellKinded : ∃ table spec program normal obs, define defs = .ok table ∧
    table.spec copySpec = .ok spec ∧ table.program copy = .ok program ∧
    program.normalize = .ok normal ∧ generate spec program = .ok obs ∧
    copySpec.WellKinded ∧ copy.WellKinded ∧
    spec.WellKinded ∧ program.WellKinded ∧ normal.WellKinded ∧
    ∀ o ∈ obs, o.predicate.wellKinded = true := by
  obtain ⟨table, spec, program, normal, obs, htable, hspec, hprogram, hnormal, hobs⟩ := exists_copy
  have hcopySpec : copySpec.WellKinded :=
    ⟨by decide +kernel, by decide +kernel, List.forall_mem_nil _⟩
  have hcopy : copy.WellKinded := by
    simp only [Program.WellKinded, copy, Statement.everySeq_cons, Statement.Every, and_true,
      Statement.everySeq_nil]
    exact ⟨List.forall_mem_singleton.mpr (by decide +kernel),
      List.forall_mem_singleton.mpr (by decide +kernel)⟩
  obtain ⟨-, -, -, hpipeline⟩ := wellKinded_of_wellKinded
  obtain ⟨-, hexpanded⟩ := hpipeline defs table wellKinded_of_mem_defs htable
  obtain ⟨hspec', hprogram', hobs', hnormal'⟩ :=
    hexpanded copySpec spec copy program hcopySpec hcopy hspec hprogram
  exact ⟨table, spec, program, normal, obs, htable, hspec, hprogram, hnormal, hobs, hcopySpec,
    hcopy, hspec', hprogram', (hnormal' normal hnormal).1, hobs' obs hobs⟩

end Shorthands.Sample

end GuardedCommand
