import GuardedCommand.Proofs.SubstitutionRules

/-! # Meaning of a substitution

A substituted formula means in a state what the formula means in the state in which every replaced
name has the value of its replacement.

* `Substitution.apply`: the state a substitution turns a state into.
* `Substitution.Below.apply_update`: what happens to that state at a binder, whose variable may have
  been renamed.
* `Node.Becomes.meaning_eq`: the statement for the rules of substitution.
* `Predicate.holds_subst` and its companions, `Node.meaning_subst`: the statement for substitutions
  that succeed.
-/

namespace GuardedCommand

variable {I : Interpretation}

namespace Substitution

/-- The state in which every replaced name has the value of its replacement. -/
def apply (I : Interpretation) (σ : Substitution) (s : State) : State := fun x =>
  match σ.lookup x with
  | some e => e.value I s
  | none => s x

variable {σ τ : Substitution} {s : State} {x k : String} {e : Expr}

/-- A replaced name has the value of its replacement. -/
theorem apply_of_lookup (h : σ.lookup x = some e) : σ.apply I s x = e.value I s := by
  simp only [apply, h]

/-- A name that is not replaced has its own value. -/
theorem apply_of_lookup_none (h : σ.lookup x = none) : σ.apply I s x = s x := by
  simp only [apply, h]

/-- What a name becomes has the value that the name is given. -/
theorem value_replacement (x : String) : (σ.replacement x).value I s = σ.apply I s x := by
  cases h : σ.lookup x with
  | none => rw [apply_of_lookup_none h, replacement_of_lookup_none h, Expr.value, Variable.value]
  | some e => rw [apply_of_lookup h, replacement_of_lookup h]

/-! ## Binders -/

/-- Below a binder of `k` that no replacement mentions, the pairs for other names do what the whole
substitution does outside. -/
theorem apply_hide (hm : ¬ ((σ.hide k).mentions k) = true) (v : Value) (y : String) :
    (σ.hide k).apply I (Function.update s k v) y = Function.update (σ.apply I s) k v y := by
  by_cases hyk : y = k
  · subst hyk
    rw [apply_of_lookup_none lookup_hide_self, Function.update_self, Function.update_self]
  · rw [Function.update_of_ne hyk]
    cases hl : σ.lookup y with
    | none =>
      have hl' : (σ.hide k).lookup y = none := by rw [lookup_hide_of_ne hyk, hl]
      rw [apply_of_lookup_none hl', apply_of_lookup_none hl, Function.update_of_ne hyk]
    | some e =>
      have hl' : (σ.hide k).lookup y = some e := by rw [lookup_hide_of_ne hyk, hl]
      rw [apply_of_lookup hl', apply_of_lookup hl]
      refine e.value_congr (m := .free) fun z hz => Function.update_of_ne ?_ _ _
      rintro rfl
      exact notMem_freeNames_of_not_mentions hm hl' hz

/-- Below a binder whose variable `k` was renamed to the new name `x'`, the pairs for other names do
what the whole substitution does outside. -/
theorem apply_rename {x' : String} (hx' : x' ∉ σ.names) (v : Int) {y : String} (hy : y ≠ x') :
    ((σ.hide k).rename k x').apply I (Function.update s x' (.int v)) y =
      Function.update (σ.apply I s) k (.int v) y := by
  by_cases hyk : y = k
  · subst hyk
    have hl : ((σ.hide y).rename y x').lookup y = some (.name x') := by
      rw [lookup_rename, if_pos rfl]
    rw [apply_of_lookup hl, Function.update_self, Expr.name, Expr.value, IntExpr.value_name,
      Function.update_self]
  · rw [Function.update_of_ne hyk]
    cases hl : σ.lookup y with
    | none =>
      have hl' : ((σ.hide k).rename k x').lookup y = none := by
        rw [lookup_rename, if_neg hyk, hl]
      rw [apply_of_lookup_none hl', apply_of_lookup_none hl, Function.update_of_ne hy]
    | some e =>
      have hl' : ((σ.hide k).rename k x').lookup y = some e := by
        rw [lookup_rename, if_neg hyk, hl]
      rw [apply_of_lookup hl', apply_of_lookup hl]
      refine e.value_congr (m := .all) fun z hz => Function.update_of_ne ?_ _ _
      rintro rfl
      exact hx' (allNames_subset_names hl hz)

/-- Below a binder the substitution does with the new bound variable what the whole one does around
it with the old one, on every name of the parts. -/
theorem Below.apply_update {parts : List String} {k' : String} (hk : σ.Below k parts k' τ)
    (s : State) (v : Int) {y : String} (hy : y ∈ parts) :
    τ.apply I (Function.update s k' (.int v)) y =
      Function.update (σ.apply I s) k (.int v) y := by
  cases hk with
  | kept hm => exact apply_hide hm _ y
  | renamed hparts hσ => exact apply_rename hσ v fun heq => hparts (heq ▸ hy)

end Substitution

/-! ## Kinds

A replacement that was made to fit its place keeps its value. -/

/-- A variable made of an expression has the value of the expression. -/
theorem Expr.value_toMap {e : Expr} {v : Variable} {s : State} (h : e.toMap = .ok v) :
    v.value I s = e.value I s := by
  unfold Expr.toMap at h
  split at h
  · next w hw =>
    cases h
    exact (Expr.value_of_asVariable hw).symm
  · cases h

/-- An integer expression made of an expression has the value of the expression. -/
theorem Expr.value_toInt {e : Expr} {d : IntExpr} {s : State} (h : e.toInt = .ok d) :
    d.value I s = e.value I s := by
  unfold Expr.toInt at h
  split at h <;> cases h
  · rw [Expr.value]
  · rw [Expr.value, IntExpr.value]

/-- An argument made of an expression has the value of the expression. -/
theorem Expr.value_toArgument (e : Expr) (s : State) : e.toArgument.value I s = e.value I s := by
  unfold Expr.toArgument
  split
  · simp only [Expr.value, IntExpr.value]
  · simp only [Expr.value, IntExpr.value]
  · rfl

/-! ## Below a binder

What is shown of a part below a binder, for the substitution and the bound variable found there,
carries over to the ones around it. -/

section Binder

variable {σ τ : Substitution} {k k' : String} {parts : List String}

/-- A predicate below a binder, with the bound variable renamed, holds as before. -/
theorem Predicate.holds_below {p p' : Predicate} (hk : σ.Below k parts k' τ)
    (hp : p.allNames ⊆ parts) (hτ : ∀ s, p'.Holds I s = p.Holds I (τ.apply I s)) (s : State)
    (v : Int) :
    p'.Holds I (Function.update s k' (.int v)) =
      p.Holds I (Function.update (σ.apply I s) k (.int v)) := by
  rw [hτ]
  exact propext (p.holds_congr (m := .all) fun y hy => hk.apply_update s v (hp hy))

/-- An integer expression below a binder, with the bound variable renamed, has the value as
before. -/
theorem IntExpr.value_below {e e' : IntExpr} (hk : σ.Below k parts k' τ)
    (he : e.allNames ⊆ parts) (hτ : ∀ s, e'.value I s = e.value I (τ.apply I s)) (s : State)
    (v : Int) :
    e'.value I (Function.update s k' (.int v)) =
      e.value I (Function.update (σ.apply I s) k (.int v)) := by
  rw [hτ]
  exact e.value_congr (m := .all) fun y hy => hk.apply_update s v (he hy)

end Binder

/-! ## The meaning of a substituted formula -/

/-- Arguments that have the same values one by one have them together. -/
theorem Expr.valueAll_of_zip {es es' : List Expr} {s s' : State} (hlength : es.length = es'.length)
    (h : ∀ a ∈ es.zip es', a.2.value I s = a.1.value I s') :
    Expr.valueAll I es' s = Expr.valueAll I es s' := by
  induction es generalizing es' with
  | nil =>
    obtain rfl := List.length_eq_zero_iff.mp hlength.symm
    simp only [Expr.valueAll]
  | cons e es ih =>
    cases es' with
    | nil => cases hlength
    | cons e' es' =>
      rw [List.zip_cons_cons, List.forall_mem_cons] at h
      rw [Expr.valueAll, Expr.valueAll, h.1, ih (Nat.succ.inj hlength) h.2]

/-- What a node becomes means in a state what the node means in the substituted state. -/
theorem Node.Becomes.meaning_eq {σ : Substitution} {n n' : Node} (h : n.Becomes σ n') (s : State) :
    n'.meaning I s = n.meaning I (σ.apply I s) := by
  -- The state is arbitrary in the induction: below a binder it is one with a new value for the
  -- bound variable.
  induction h generalizing s with
  | name x => exact congrArg Meaning.value (Substitution.value_replacement x)
  | select _ hv _ ihb ihi =>
    have hb := (Expr.value_toMap hv).trans (Meaning.value.inj (ihb s))
    have hi := Meaning.value.inj (ihi s)
    simp only [Node.meaning, Expr.value, Variable.value, hb, hi]
  | store _ hv _ _ ihb ihi ihe =>
    have hb := (Expr.value_toMap hv).trans (Meaning.value.inj (ihb s))
    have hi := Meaning.value.inj (ihi s)
    have he := Meaning.value.inj (ihe s)
    simp only [Node.meaning, Expr.value, Variable.value, hb, hi, he]
  | map _ ih => exact ih s
  | argument x =>
    rw [Node.meaning, Expr.value_toArgument, Substitution.value_replacement]
    simp only [Node.meaning, Expr.value, IntExpr.value, Variable.value]
  | int _ _ ih => exact ih s
  | const c => simp only [Node.meaning, IntExpr.value]
  | var _ he ih =>
    have hv := (Expr.value_toInt he).trans (Meaning.value.inj (ih s))
    simp only [Node.meaning, IntExpr.value, hv]
  | negate _ ih =>
    have he := Meaning.value.inj (ih s)
    simp only [Node.meaning, IntExpr.value, he]
  | arith _ _ ihl ihr =>
    have hl := Meaning.value.inj (ihl s)
    have hr := Meaning.value.inj (ihr s)
    simp only [Node.meaning, IntExpr.value, hl, hr]
  | function hlength _ ih =>
    have hargs := Expr.valueAll_of_zip hlength fun a ha => Meaning.value.inj (ih a ha s)
    simp only [Node.meaning, IntExpr.value, hargs]
  | fold hk _ _ ihc ihe =>
    have hc := Predicate.holds_below hk (List.subset_append_left _ _)
      (fun s => Meaning.truth.inj (ihc s)) s
    have he := IntExpr.value_below hk (List.subset_append_right _ _)
      (fun s => Meaning.value.inj (ihe s)) s
    simp only [Node.meaning, IntExpr.value, hc, he]
  | count hk _ _ ihc ihp =>
    have hc := Predicate.holds_below hk (List.subset_append_left _ _)
      (fun s => Meaning.truth.inj (ihc s)) s
    have hp := Predicate.holds_below hk (List.subset_append_right _ _)
      (fun s => Meaning.truth.inj (ihp s)) s
    simp only [Node.meaning, IntExpr.value, hc, hp]
  | intSame hnone =>
    -- the two states differ, but not at the free names
    refine congrArg Meaning.value (IntExpr.value_congr (m := .free) _ fun x hx => ?_)
    exact (Substitution.apply_of_lookup_none (hnone x hx)).symm
  | truth b => simp only [Node.meaning, Predicate.Holds]
  | not _ ih =>
    have hp := Meaning.truth.inj (ih s)
    simp only [Node.meaning, Predicate.Holds, hp]
  | connective _ _ ihl ihr =>
    have hl := Meaning.truth.inj (ihl s)
    have hr := Meaning.truth.inj (ihr s)
    simp only [Node.meaning, Predicate.Holds, hl, hr]
  | comp _ _ ihl ihr =>
    have hl := Meaning.value.inj (ihl s)
    have hr := Meaning.value.inj (ihr s)
    simp only [Node.meaning, Predicate.Holds, hl, hr]
  | relation hlength _ ih =>
    have hargs := Expr.valueAll_of_zip hlength fun a ha => Meaning.value.inj (ih a ha s)
    simp only [Node.meaning, Predicate.Holds, hargs]
  | perm _ hv _ hw _ iha ihb ihn =>
    have ha := (Expr.value_toMap hv).trans (Meaning.value.inj (iha s))
    have hb := (Expr.value_toMap hw).trans (Meaning.value.inj (ihb s))
    have hn := Meaning.value.inj (ihn s)
    simp only [Node.meaning, Predicate.Holds, ha, hb, hn]
  | quant hk _ _ ihc ihp =>
    have hc := Predicate.holds_below hk (List.subset_append_left _ _)
      (fun s => Meaning.truth.inj (ihc s)) s
    have hp := Predicate.holds_below hk (List.subset_append_right _ _)
      (fun s => Meaning.truth.inj (ihp s)) s
    simp only [Node.meaning, Predicate.Holds, hc, hp]
  | predicateSame hnone =>
    refine congrArg Meaning.truth (propext (Predicate.holds_congr (m := .free) _ fun x hx => ?_))
    exact (Substitution.apply_of_lookup_none (hnone x hx)).symm

section Kinds

variable {σ : Substitution}

/-- A predicate after a substitution holds where the predicate holds in the substituted state. -/
theorem Predicate.holds_subst {p p' : Predicate} (h : p.subst σ = .ok p') (s : State) :
    p'.Holds I s ↔ p.Holds I (σ.apply I s) :=
  iff_of_eq (Meaning.truth.inj ((Predicate.becomes_of_subst h).meaning_eq s))

/-- An integer expression after a substitution has its value in the substituted state. -/
theorem IntExpr.value_subst {e e' : IntExpr} (h : e.subst σ = .ok e') (s : State) :
    e'.value I s = e.value I (σ.apply I s) :=
  Meaning.value.inj ((IntExpr.becomes_of_subst h).meaning_eq s)

/-- A variable after a substitution has its value in the substituted state. -/
theorem Variable.value_subst {v : Variable} {e' : Expr} (h : v.subst σ = .ok e') (s : State) :
    e'.value I s = v.value I (σ.apply I s) :=
  Meaning.value.inj ((Variable.becomes_of_subst h).meaning_eq s)

/-- An expression after a substitution has its value in the substituted state. -/
theorem Expr.value_subst {e e' : Expr} (h : e.subst σ = .ok e') (s : State) :
    e'.value I s = e.value I (σ.apply I s) :=
  Meaning.value.inj ((Expr.becomes_of_subst h).meaning_eq s)

end Kinds

/-! ## The substitution lemma -/

/-- A substituted node means in a state what the node means in the state in which every replaced
name has the value of its replacement. -/
theorem Node.meaning_subst {I : Interpretation} {σ : Substitution} {n n' : Node}
    (h : n.subst σ = .ok n') (s : State) : n'.meaning I s = n.meaning I (σ.apply I s) := by
  cases n with
  | predicate p =>
    obtain ⟨p', hp, rfl⟩ := exists_of_map_eq_ok h
    exact congrArg Meaning.truth (propext (Predicate.holds_subst hp s))
  | int e =>
    obtain ⟨e', he, rfl⟩ := exists_of_map_eq_ok h
    exact congrArg Meaning.value (IntExpr.value_subst he s)
  | var v =>
    obtain ⟨e', hv, rfl⟩ := exists_of_map_eq_ok h
    exact congrArg Meaning.value (Variable.value_subst hv s)
  | expr e =>
    obtain ⟨e', he, rfl⟩ := exists_of_map_eq_ok h
    exact congrArg Meaning.value (Expr.value_subst he s)

/-- The predicate `(A k : 0 ≤ k ∧ k < n : a[k] ≤ x)`. -/
def allAtMost (k n : String) (x : IntExpr) : Predicate :=
  .quant .all k (.and (.comp .le (.const 0) (.name k)) (.comp .lt (.name k) (.name n)))
    (.comp .le (.var (.select (.name "a") (.name k))) x)

/-- Replacing `x` by `a[k]` and `n` by `x` at once renames the bound variable, and the `x` that
takes the place of `n` is not replaced again. -/
theorem allAtMost_subst :
    let I : Interpretation := .standard (fun _ _ => 0) fun _ _ => False
    let s : State := fun x => if x = "a" then .map fun i => .int i else .int 4
    let σ : Substitution :=
      ⟨[("x", .int (.var (.select (.name "a") (.name "k")))), ("n", .name "x")]⟩
    let before := Node.predicate (allAtMost "k" "n" (.name "x"))
    let after := Node.predicate
      (allAtMost "uniqueName0" "x" (.var (.select (.name "a") (.name "k"))))
    before.subst σ = .ok after ∧ after.meaning I s = before.meaning I (σ.apply I s) := by
  intro I s σ before after
  have hsubst : (allAtMost "k" "n" (.name "x")).subst σ =
      .ok (allAtMost "uniqueName0" "x" (.var (.select (.name "a") (.name "k")))) := by
    decide +kernel
  have hnode : before.subst σ = .ok after := by
    simp only [before, after, Node.subst, hsubst]
    rfl
  exact ⟨hnode, Node.meaning_subst hnode s⟩

end GuardedCommand
