import GuardedCommand.Proofs.SubstitutionRules

/-! # Free names after a substitution

Substitution captures no name and loses none. Every free occurrence of a name gives way to the free
names of what the name becomes, in the same place, and there are no others.

* `Predicate.mem_allNames_of_free` and its companions: a free name is a name.
* `Substitution.freeNamesOf`: the free names that take the place of a list of names.
* `Substitution.Below.binder_freeNamesOf`: a binder hides the same occurrences before and after,
  whether its variable is renamed or not.
* `Node.Becomes.freeNames_eq`: the free names of what a node becomes, in order.
* `Node.mem_freeNames_subst`: which names are free after a substitution.
-/

namespace GuardedCommand

/-! ## Free names are names -/

/-- A name that is free below a binder is mentioned there. -/
theorem Mention.mem_binder_all_of_free {k x : String} {xs ys : List String}
    (h : x ∈ xs → x ∈ ys) (hx : x ∈ Mention.free.binder k xs) : x ∈ Mention.all.binder k ys :=
  List.mem_cons_of_mem k (h (Mention.mem_binder_free.mp hx).1)

section FreeNames

variable {x : String}

mutual

/-- A free name of a variable is mentioned in it. -/
theorem Variable.mem_allNames_of_free : ∀ v : Variable, x ∈ v.freeNames → x ∈ v.allNames
  | .name _ => id
  | .select b i => by
    simp only [Variable.freeNames, Variable.allNames, Variable.names, List.mem_append]
    exact Or.imp b.mem_allNames_of_free i.mem_allNames_of_free
  | .store b i e => by
    simp only [Variable.freeNames, Variable.allNames, Variable.names, List.mem_append]
    exact Or.imp (Or.imp b.mem_allNames_of_free i.mem_allNames_of_free) e.mem_allNames_of_free

/-- A free name of an expression is mentioned in it. -/
theorem Expr.mem_allNames_of_free : ∀ e : Expr, x ∈ e.freeNames → x ∈ e.allNames
  | .map v => v.mem_allNames_of_free
  | .int e => e.mem_allNames_of_free

/-- A free name of an integer expression is mentioned in it. -/
theorem IntExpr.mem_allNames_of_free : ∀ e : IntExpr, x ∈ e.freeNames → x ∈ e.allNames
  | .const _ => id
  | .var v => v.mem_allNames_of_free
  | .negate e => e.mem_allNames_of_free
  | .binary _ l r => by
    simp only [IntExpr.freeNames, IntExpr.allNames, IntExpr.names, List.mem_append]
    exact Or.imp l.mem_allNames_of_free r.mem_allNames_of_free
  | .call _ args => Expr.mem_namesAll_of_free args
  | .fold _ _ c e => by
    refine Mention.mem_binder_all_of_free ?_
    simp only [List.mem_append]
    exact Or.imp c.mem_allNames_of_free e.mem_allNames_of_free
  | .count _ c p => by
    refine Mention.mem_binder_all_of_free ?_
    simp only [List.mem_append]
    exact Or.imp c.mem_allNames_of_free p.mem_allNames_of_free

/-- A free name of a predicate is mentioned in it. -/
theorem Predicate.mem_allNames_of_free : ∀ p : Predicate, x ∈ p.freeNames → x ∈ p.allNames
  | .const _ => id
  | .not p => p.mem_allNames_of_free
  | .binary _ l r => by
    simp only [Predicate.freeNames, Predicate.allNames, Predicate.names, List.mem_append]
    exact Or.imp l.mem_allNames_of_free r.mem_allNames_of_free
  | .comp _ l r => by
    simp only [Predicate.freeNames, Predicate.allNames, Predicate.names, List.mem_append]
    exact Or.imp l.mem_allNames_of_free r.mem_allNames_of_free
  | .call _ args => Expr.mem_namesAll_of_free args
  | .perm a b n => by
    simp only [Predicate.freeNames, Predicate.allNames, Predicate.names, List.mem_append]
    exact Or.imp (Or.imp a.mem_allNames_of_free b.mem_allNames_of_free) n.mem_allNames_of_free
  | .quant _ _ c p => by
    refine Mention.mem_binder_all_of_free ?_
    simp only [List.mem_append]
    exact Or.imp c.mem_allNames_of_free p.mem_allNames_of_free

/-- A free name of arguments is mentioned in one of them. -/
theorem Expr.mem_namesAll_of_free :
    ∀ es : List Expr, x ∈ Expr.namesAll .free es → x ∈ Expr.namesAll .all es
  | [] => id
  | e :: es => by
    simp only [Expr.namesAll, List.mem_append]
    exact Or.imp e.mem_allNames_of_free (Expr.mem_namesAll_of_free es)

end

end FreeNames

/-! ## What takes the place of a name -/

namespace Substitution

variable {σ τ : Substitution} {k k' x : String} {parts xs : List String}

/-- The free names that take the place of the names `xs`, in order. -/
def freeNamesOf (σ : Substitution) (xs : List String) : List String :=
  xs.flatMap fun x => (σ.replacement x).freeNames

/-- The free names of what some names become, list by list. -/
theorem freeNamesOf_append (xs ys : List String) :
    σ.freeNamesOf (xs ++ ys) = σ.freeNamesOf xs ++ σ.freeNamesOf ys :=
  List.flatMap_append

/-- The free names of what one name becomes. -/
theorem freeNamesOf_singleton (x : String) :
    σ.freeNamesOf [x] = (σ.replacement x).freeNames := by
  rw [freeNamesOf, List.flatMap_singleton]

/-- Names that are not replaced stay. -/
theorem freeNamesOf_of_lookup_none (h : ∀ x ∈ xs, σ.lookup x = none) : σ.freeNamesOf xs = xs := by
  induction xs with
  | nil => rfl
  | cons x xs ih =>
    obtain ⟨hx, hxs⟩ := List.forall_mem_cons.mp h
    have hhead : (σ.replacement x).freeNames = [x] := by
      rw [replacement_of_lookup_none hx]
      rfl
    rw [← List.singleton_append, freeNamesOf_append, freeNamesOf_singleton, hhead, ih hxs]

/-- The bound variable becomes the new bound variable. -/
theorem Below.replacement_self (hk : σ.Below k parts k' τ) :
    (τ.replacement k).freeNames = [k'] := by
  cases hk with
  | kept =>
    rw [replacement_of_lookup_none lookup_hide_self]
    rfl
  | renamed =>
    have hlookup : ((σ.hide k).rename k k').lookup k = some (.name k') := by
      rw [lookup_rename, if_pos rfl]
    rw [replacement_of_lookup hlookup]
    rfl

/-- Any other name becomes what it becomes outside. -/
theorem Below.replacement_of_ne (hk : σ.Below k parts k' τ) (hx : x ≠ k) :
    τ.replacement x = σ.replacement x := by
  cases hk with
  | kept => rw [replacement, replacement, lookup_hide_of_ne hx]
  | renamed => rw [replacement, replacement, lookup_rename, if_neg hx]

/-- The new bound variable is not free in what takes the place of another name of the parts. -/
theorem Below.notMem_replacement (hk : σ.Below k parts k' τ) (hx : x ≠ k) (hparts : x ∈ parts) :
    k' ∉ (σ.replacement x).freeNames := by
  cases hlookup : σ.lookup x with
  | none =>
    rw [replacement_of_lookup_none hlookup]
    have hne : k' ≠ x := by
      cases hk with
      | kept => exact hx.symm
      | renamed hfresh => exact fun heq => hfresh (heq ▸ hparts)
    simpa [Expr.freeNames, Expr.names, Variable.names] using hne
  | some e =>
    rw [replacement_of_lookup hlookup]
    cases hk with
    | kept hm =>
      rw [← lookup_hide_of_ne hx] at hlookup
      exact notMem_freeNames_of_not_mentions hm hlookup
    | renamed _ hσ =>
      intro hmem
      exact hσ (allNames_subset_names hlookup (e.mem_allNames_of_free hmem))

/-- A binder hides the same occurrences before and after a substitution. -/
theorem Below.binder_freeNamesOf (hk : σ.Below k parts k' τ) (hxs : ∀ x ∈ xs, x ∈ parts) :
    Mention.free.binder k' (τ.freeNamesOf xs) = σ.freeNamesOf (Mention.free.binder k xs) := by
  -- One occurrence after the other: an occurrence of `k` becomes one of `k'` and both are hidden,
  -- any other becomes the same inside and outside, and nothing of it is hidden.
  induction xs with
  | nil => rfl
  | cons x xs ih =>
    obtain ⟨hx, hxs⟩ := List.forall_mem_cons.mp hxs
    have htail := ih hxs
    simp only [Mention.binder, Mention.free, Bool.false_eq_true, if_false] at htail ⊢
    rw [← List.singleton_append, freeNamesOf_append, freeNamesOf_singleton, List.filter_append,
      List.filter_append, freeNamesOf_append, htail]
    congr 1
    by_cases hxk : x = k
    · subst hxk
      rw [hk.replacement_self]
      simp [freeNamesOf]
    · have hkeep : (σ.replacement x).freeNames.filter (· ≠ k') = (σ.replacement x).freeNames := by
        refine List.filter_eq_self.mpr fun y hy => decide_eq_true ?_
        rintro rfl
        exact hk.notMem_replacement hxk hx hy
      have hself : [x].filter (· ≠ k) = [x] := by simp [hxk]
      rw [hk.replacement_of_ne hxk, hkeep, hself, freeNamesOf_singleton]

end Substitution

/-! ## Free names of what a node becomes -/

/-- An expression used as a map mentions what it did. -/
theorem Expr.freeNames_of_toMap {e : Expr} {v : Variable} (h : e.toMap = .ok v) :
    v.freeNames = e.freeNames := by
  unfold Expr.toMap Expr.asVariable at h
  split at h
  · next hv =>
    split at hv <;> cases hv <;> cases h <;> rfl
  · cases h

/-- An expression used as an integer mentions what it did. -/
theorem Expr.freeNames_of_toInt {e : Expr} {d : IntExpr} (h : e.toInt = .ok d) :
    d.freeNames = e.freeNames := by
  unfold Expr.toInt at h
  split at h <;> cases h <;> rfl

/-- An expression used as an argument mentions what it did. -/
theorem Expr.freeNames_toArgument (e : Expr) : e.toArgument.freeNames = e.freeNames := by
  unfold Expr.toArgument
  split <;> rfl

/-- What is true of the free names of each argument is true of those of all. -/
theorem Expr.namesAll_of_zip {σ : Substitution} {es es' : List Expr}
    (hlength : es.length = es'.length)
    (h : ∀ a ∈ es.zip es', a.2.freeNames = σ.freeNamesOf a.1.freeNames) :
    Expr.namesAll .free es' = σ.freeNamesOf (Expr.namesAll .free es) := by
  induction es generalizing es' with
  | nil =>
    obtain rfl := List.length_eq_zero_iff.mp hlength.symm
    rfl
  | cons e es ih =>
    cases es' with
    | nil => cases hlength
    | cons e' es' =>
      rw [List.zip_cons_cons, List.forall_mem_cons] at h
      have htail := ih (Nat.succ.inj hlength) h.2
      rw [Expr.namesAll, Expr.namesAll, σ.freeNamesOf_append, htail]
      exact congrArg (· ++ _) h.1

/-- The free names of a binder, from those of its two parts. -/
theorem Substitution.Below.binder_append {σ τ : Substitution} {k k' : String}
    {xs xs' ys ys' allXs allYs : List String} (hk : σ.Below k (allXs ++ allYs) k' τ)
    (hxs : ∀ x ∈ xs, x ∈ allXs) (hys : ∀ y ∈ ys, y ∈ allYs)
    (hxs' : xs' = τ.freeNamesOf xs) (hys' : ys' = τ.freeNamesOf ys) :
    Mention.free.binder k' (xs' ++ ys') = σ.freeNamesOf (Mention.free.binder k (xs ++ ys)) := by
  have hparts : ∀ x ∈ xs ++ ys, x ∈ allXs ++ allYs := by
    intro x hx
    exact List.mem_append.mpr ((List.mem_append.mp hx).imp (hxs x) (hys x))
  rw [hxs', hys', ← τ.freeNamesOf_append, hk.binder_freeNamesOf hparts]

/-- The free names of what a node becomes are those that take the place of its own, in order. -/
theorem Node.Becomes.freeNames_eq {σ : Substitution} {n n' : Node} (h : n.Becomes σ n') :
    n'.freeNames = σ.freeNamesOf n.freeNames := by
  -- Only the binders have an argument: there the bound variable, renamed or not, is taken away on
  -- both sides.
  induction h with
  | name x => exact (Substitution.freeNamesOf_singleton x).symm
  | select _ hv _ ihb ihi =>
    have hb := (Expr.freeNames_of_toMap hv).trans ihb
    simp only [Node.freeNames, Expr.freeNames_map, Variable.freeNames_select,
      Substitution.freeNamesOf_append] at hb ihi ⊢
    rw [hb, ihi]
  | store _ hv _ _ ihb ihi ihe =>
    have hb := (Expr.freeNames_of_toMap hv).trans ihb
    simp only [Node.freeNames, Expr.freeNames_map, Variable.freeNames_store,
      Substitution.freeNamesOf_append] at hb ihi ihe ⊢
    rw [hb, ihi, ihe]
  | map _ ih => exact ih
  | argument x =>
    exact (Expr.freeNames_toArgument _).trans (Substitution.freeNamesOf_singleton x).symm
  | int _ _ ih => exact ih
  | const c => rfl
  | var _ he ih => exact (Expr.freeNames_of_toInt he).trans ih
  | negate _ ih => exact ih
  | arith _ _ ihl ihr =>
    simp only [Node.freeNames, IntExpr.freeNames_binary,
      Substitution.freeNamesOf_append] at ihl ihr ⊢
    rw [ihl, ihr]
  | function hlength _ ih => exact Expr.namesAll_of_zip hlength ih
  | fold hk _ _ ihc ihe =>
    exact hk.binder_append (fun _ => Predicate.mem_allNames_of_free _)
      (fun _ => IntExpr.mem_allNames_of_free _) ihc ihe
  | count hk _ _ ihc ihp =>
    exact hk.binder_append (fun _ => Predicate.mem_allNames_of_free _)
      (fun _ => Predicate.mem_allNames_of_free _) ihc ihp
  | intSame hnone => exact (Substitution.freeNamesOf_of_lookup_none hnone).symm
  | truth b => rfl
  | not _ ih => exact ih
  | connective _ _ ihl ihr =>
    simp only [Node.freeNames, Predicate.freeNames_binary,
      Substitution.freeNamesOf_append] at ihl ihr ⊢
    rw [ihl, ihr]
  | comp _ _ ihl ihr =>
    simp only [Node.freeNames, Predicate.freeNames_comp,
      Substitution.freeNamesOf_append] at ihl ihr ⊢
    rw [ihl, ihr]
  | relation hlength _ ih => exact Expr.namesAll_of_zip hlength ih
  | perm _ hv _ hw _ iha ihb ihn =>
    have ha := (Expr.freeNames_of_toMap hv).trans iha
    have hb := (Expr.freeNames_of_toMap hw).trans ihb
    simp only [Node.freeNames, Predicate.freeNames_perm,
      Substitution.freeNamesOf_append] at ha hb ihn ⊢
    rw [ha, hb, ihn]
  | quant hk _ _ ihc ihp =>
    exact hk.binder_append (fun _ => Predicate.mem_allNames_of_free _)
      (fun _ => Predicate.mem_allNames_of_free _) ihc ihp
  | predicateSame hnone => exact (Substitution.freeNamesOf_of_lookup_none hnone).symm

/-! ## Nothing is captured and nothing is lost -/

/-- A name has no replacement exactly if it is in none of the pairs. -/
theorem Substitution.lookup_eq_none_iff {σ : Substitution} {x : String} :
    σ.lookup x = none ↔ x ∉ σ.pairs.map Prod.fst := by
  rw [lookup, List.lookup_eq_none_iff]
  simp only [List.mem_map, not_exists, not_and, bne_iff_ne]
  exact forall₂_congr fun _ _ => ne_comm

/-- A name that takes the place of one of `xs` is one of them that is not replaced, or is free in
the replacement of one of them. -/
theorem Substitution.mem_freeNamesOf {σ : Substitution} {xs : List String} {x : String} :
    x ∈ σ.freeNamesOf xs ↔
      (x ∈ xs ∧ x ∉ σ.pairs.map Prod.fst) ∨
        ∃ y ∈ xs, ∃ e, σ.lookup y = some e ∧ x ∈ e.freeNames := by
  rw [freeNamesOf, List.mem_flatMap, ← lookup_eq_none_iff]
  constructor
  · rintro ⟨y, hy, hx⟩
    cases hlookup : σ.lookup y with
    | none =>
      rw [replacement_of_lookup_none hlookup] at hx
      obtain rfl : x = y := List.mem_singleton.mp hx
      exact .inl ⟨hy, hlookup⟩
    | some e =>
      rw [replacement_of_lookup hlookup] at hx
      exact .inr ⟨y, hy, e, hlookup, hx⟩
  · rintro (⟨hx, hlookup⟩ | ⟨y, hy, e, hlookup, hx⟩)
    · refine ⟨x, hx, ?_⟩
      rw [replacement_of_lookup_none hlookup]
      exact List.mem_singleton_self x
    · refine ⟨y, hy, ?_⟩
      rwa [replacement_of_lookup hlookup]

/-- Free after a substitution are the free names that are not replaced and the free names of the
replacements of those that are; of several pairs for one name the first counts. -/
theorem Node.mem_freeNames_subst {σ : Substitution} {n n' : Node} (h : n.subst σ = .ok n')
    (x : String) :
    x ∈ n'.freeNames ↔
      (x ∈ n.freeNames ∧ x ∉ σ.pairs.map Prod.fst) ∨
        ∃ y ∈ n.freeNames, ∃ e, σ.lookup y = some e ∧ x ∈ e.freeNames := by
  rw [(Node.becomes_of_subst h).freeNames_eq, Substitution.mem_freeNamesOf]

/-- The predicate `(A k : k < n : (E j : j < k : a[j] ≤ x))`. -/
def boundedByEarlier (k j : String) (n x : IntExpr) : Predicate :=
  .quant .all k (.comp .lt (.name k) n)
    (.quant .some j (.comp .lt (.name j) (.name k))
      (.comp .le (.var (.select (.name "a") (.name j))) x))

/-- Replacing `x` by `k + j` renames both bound variables, so that neither summand is captured. The
pair for `k` and the second pair for `x` have no effect. -/
theorem boundedByEarlier_freeNames :
    let sum : IntExpr := .plus (.name "k") (.name "j")
    let element : IntExpr := .var (.select (.name "a") (.name "i"))
    let σ : Substitution :=
      ⟨[("x", .int sum), ("k", .name "z"), ("n", .int element), ("x", .name "z")]⟩
    let before := Node.predicate (boundedByEarlier "k" "j" (.name "n") (.name "x"))
    let after := Node.predicate (boundedByEarlier "uniqueName0" "uniqueName1" element sum)
    before.subst σ = .ok after ∧
      ∀ x, x ∈ after.freeNames ↔
        (x ∈ before.freeNames ∧ x ∉ σ.pairs.map Prod.fst) ∨
          ∃ y ∈ before.freeNames, ∃ e, σ.lookup y = some e ∧ x ∈ e.freeNames := by
  intro sum element σ before after
  have hsubst : (boundedByEarlier "k" "j" (.name "n") (.name "x")).subst σ =
      .ok (boundedByEarlier "uniqueName0" "uniqueName1" element sum) := by
    decide +kernel
  have hnode : before.subst σ = .ok after := by
    simp only [before, after, Node.subst, hsubst]
    rfl
  exact ⟨hnode, Node.mem_freeNames_subst hnode⟩

end GuardedCommand
