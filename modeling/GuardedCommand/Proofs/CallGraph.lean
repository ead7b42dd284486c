import GuardedCommand.Proofs.SingleShorthand
import Mathlib.Data.Finset.Card
import Mathlib.Data.Finset.Dedup
import Mathlib.Logic.Relation

/-! # The call graph of shorthands

A shorthand refers to the shorthands that its body calls. If no shorthand refers to itself, directly
or through others, then `n - 1` rounds are enough to expand `n` shorthands into each other: no body
calls a shorthand any more, and one expansion of a formula leaves nothing to expand.

The rank of a shorthand is the number of shorthands that it refers to, also through others. A
reference leads to a smaller rank, and each round increases the distance by one at least, as the
bodies that it puts in place of the calls have been through the rounds before.

* `Shorthands.Calls`, `Shorthands.Acyclic`: the graph.
* `Shorthands.rank`, `Shorthands.rank_lt_of_calls`, `Shorthands.rank_lt_length`: the rank.
* `Shorthand.CalledLike`: shorthands with the same calls.
* `Shorthand.StageOf`, `Shorthands.stageOf_of_round`: what a round does to the ranks that bodies
  refer to.
* `Shorthands.unresolved_of_stageOf`: the bodies after all rounds.
* `Shorthands.resolved_of_acyclic`: bodies and expansions.
-/

namespace GuardedCommand

namespace Shorthands

/-! ## Ranks -/

/-- The body of `s` calls the shorthand `t`. -/
def Calls (table : Shorthands) (s t : Shorthand) : Prop :=
  s ∈ table.defs ∧ ∃ c ∈ s.body.callees, table.resolve? c = some t

/-- No shorthand refers to itself, neither directly nor through others. -/
def Acyclic (table : Shorthands) : Prop :=
  ∀ s, ¬ Relation.TransGen table.Calls s s

open Classical in
/-- The number of shorthands that `s` refers to, directly or through others. -/
noncomputable def rank (table : Shorthands) (s : Shorthand) : Nat :=
  (table.defs.toFinset.filter fun t => Relation.TransGen table.Calls s t).card

variable {table : Shorthands} {s t : Shorthand}

/-- What is called is in the table. -/
theorem Calls.mem_right (h : table.Calls s t) : t ∈ table.defs := by
  obtain ⟨-, c, -, hc⟩ := h
  exact mem_defs_of_resolve? hc

/-- A call leads to a shorthand of smaller rank. -/
theorem rank_lt_of_calls (hacyclic : table.Acyclic) (h : table.Calls s t) :
    table.rank t < table.rank s := by
  classical
  refine Finset.card_lt_card (Finset.ssubset_iff_of_subset ?_ |>.mpr ⟨t, ?_, ?_⟩)
  · intro u hu
    obtain ⟨hmem, htu⟩ := Finset.mem_filter.mp hu
    exact Finset.mem_filter.mpr ⟨hmem, htu.head h⟩
  · exact Finset.mem_filter.mpr ⟨List.mem_toFinset.mpr h.mem_right, .single h⟩
  · intro ht
    exact hacyclic t (Finset.mem_filter.mp ht).2

/-- A shorthand does not refer to all shorthands, since it does not refer to itself. -/
theorem rank_lt_length (hacyclic : table.Acyclic) (hs : s ∈ table.defs) :
    table.rank s < table.defs.length := by
  classical
  have hlt : table.rank s < table.defs.toFinset.card := by
    refine Finset.card_lt_card (Finset.ssubset_iff_of_subset (Finset.filter_subset _ _) |>.mpr
      ⟨s, List.mem_toFinset.mpr hs, fun hmem => ?_⟩)
    exact hacyclic s (Finset.mem_filter.mp hmem).2
  exact lt_of_lt_of_le hlt (List.toFinset_card_le table.defs)

/-- Whether a measure decreases along all calls. -/
def decreases (table : Shorthands) (m : Shorthand → Nat) : Bool :=
  table.defs.all fun s => s.body.callees.all fun c => (table.resolve? c).all fun t => m t < m s

/-- A measure that decreases along all calls shows that there is no cycle. -/
theorem acyclic_of_decreases {m : Shorthand → Nat} (h : table.decreases m = true) :
    table.Acyclic := by
  have hcalls : ∀ s t, table.Calls s t → m t < m s := by
    rintro s t ⟨hs, c, hc, ht⟩
    have hdecreases := List.all_eq_true.mp (List.all_eq_true.mp h s hs) c hc
    rw [ht] at hdecreases
    exact of_decide_eq_true hdecreases
  have htrans : ∀ s t, Relation.TransGen table.Calls s t → m t < m s := by
    intro s t hst
    induction hst with
    | single hcall => exact hcalls _ _ hcall
    | tail _ hcall ih => exact lt_trans (hcalls _ _ hcall) ih
  exact fun s hs => Nat.lt_irrefl _ (htrans s s hs)

end Shorthands

/-- Calls of `s` are calls of `t`: the name, the parameters and the kind are the same. -/
structure Shorthand.CalledLike (s t : Shorthand) : Prop where
  /-- The name is the same. -/
  name : t.name = s.name
  /-- The parameters are the same. -/
  params : t.params = s.params
  /-- The body is of the same kind. -/
  kind (c : Callee) : t.body.answers c = s.body.answers c

namespace Shorthands

/-! ## Rounds -/

/-- Tables of shorthands with the same names and kinds in the same order resolve calls alike. -/
theorem rel_resolve? {R : Shorthand → Shorthand → Prop}
    (hR : ∀ s t, R s t → s.CalledLike t) {ss ts : List Shorthand}
    (h : List.Forall₂ R ss ts) (c : Callee) :
    Option.Rel R (resolve? ⟨ss⟩ c) (resolve? ⟨ts⟩ c) := by
  have hfind : Option.Rel R (find? ⟨ss⟩ c.name) (find? ⟨ts⟩ c.name) := by
    induction h with
    | nil => exact .none
    | @cons s t ss ts hst _ ih =>
      rw [find?, find?, List.find?_cons, List.find?_cons, (hR s t hst).name]
      -- the first definition of a name stays the first
      by_cases hs : s.name = c.name
      · rw [decide_eq_true hs]
        exact .some hst
      · rw [decide_eq_false hs]
        exact ih
  unfold resolve?
  generalize find? ⟨ss⟩ c.name = x, find? ⟨ts⟩ c.name = y at hfind
  cases hfind with
  | none => exact .none
  | @some s t hst =>
    simp only [Option.filter_some, (hR s t hst).kind c]
    by_cases hanswers : s.body.answers c = true
    · rw [if_pos hanswers, if_pos hanswers]
      exact .some hst
    · rw [if_neg hanswers, if_neg hanswers]
      exact .none

end Shorthands

/-- The shorthand `t` is the given shorthand `s` after `r` rounds. The given shorthands that its
body calls are more than `r` ranks below `s`. -/
structure Shorthand.StageOf (given : Shorthands) (r : Nat) (s t : Shorthand) : Prop
    extends s.CalledLike t where
  /-- The shorthand is given. -/
  mem : s ∈ given.defs
  /-- Calls lead far down. -/
  rank_lt : ∀ c ∈ t.body.callees, ∀ u, given.resolve? c = some u → given.rank u + r < given.rank s

namespace Shorthands

variable {given table table' : Shorthands} {r : Nat}

/-- After some rounds calls stand for later stages of what they stood for before. -/
theorem rel_resolve?_of_stageOf
    (h : List.Forall₂ (Shorthand.StageOf given r) given.defs table.defs) (c : Callee) :
    Option.Rel (Shorthand.StageOf given r) (given.resolve? c) (table.resolve? c) :=
  rel_resolve? (fun _ _ hst => hst.toCalledLike) h c

/-- Tables whose shorthands are called alike have the same calls that stand for nothing. -/
theorem resolve?_eq_none_iff_of_calledLike
    (h : List.Forall₂ Shorthand.CalledLike given.defs table.defs) (c : Callee) :
    table.resolve? c = none ↔ given.resolve? c = none := by
  have hrel := rel_resolve? (fun _ _ hst => hst) h c
  generalize given.resolve? c = x, table.resolve? c = y at hrel
  cases hrel with
  | none => exact Iff.rfl
  | some _ => exact iff_of_false (Option.some_ne_none _) (Option.some_ne_none _)

/-- A shorthand that a call stands for after some rounds is one that it stood for before. -/
theorem exists_given_of_resolve?
    (h : List.Forall₂ (Shorthand.StageOf given r) given.defs table.defs) {c : Callee}
    {t : Shorthand} (ht : table.resolve? c = some t) :
    ∃ s, given.resolve? c = some s ∧ Shorthand.StageOf given r s t := by
  have hrel := rel_resolve?_of_stageOf h c
  rw [ht] at hrel
  generalize given.resolve? c = x at hrel
  cases hrel with
  | some hstage => exact ⟨_, rfl, hstage⟩

/-- Before the first round a call leads down at all. -/
theorem stageOf_zero (hacyclic : given.Acyclic) :
    List.Forall₂ (Shorthand.StageOf given 0) given.defs given.defs := by
  refine List.forall₂_same.mpr fun s hs => ⟨⟨rfl, rfl, fun c => rfl⟩, hs, fun c hc u hu => ?_⟩
  exact rank_lt_of_calls hacyclic ⟨hs, c, hc, hu⟩

/-- A round takes every call one rank further down at least. -/
theorem stageOf_of_round (h : List.Forall₂ (Shorthand.StageOf given r) given.defs table.defs)
    (hround : table.round = .ok table') :
    List.Forall₂ (Shorthand.StageOf given (r + 1)) given.defs table'.defs := by
  refine forall₂_comp (fun s t t' hst hexpands => ?_) h (expandsTo_of_round hround)
  refine ⟨⟨hexpands.name.trans hst.name, hexpands.params.trans hst.params,
    fun c => (hexpands.kind c).trans (hst.kind c)⟩, hst.mem, ?_⟩
  refine hexpands.body.callsOnly fun c hc => ⟨fun hnone u hu => ?_, fun v hv d hd u hu => ?_⟩
  · -- a call that is kept is not one of a given shorthand
    have hrel := rel_resolve?_of_stageOf h c
    rw [hnone, hu] at hrel
    cases hrel
  · -- the call leads down to `v₀`, and the calls in its body lead further down
    obtain ⟨v₀, hv₀, hstage⟩ := exists_given_of_resolve? h hv
    have hfirst := hst.rank_lt c hc v₀ hv₀
    have hsecond := hstage.rank_lt d hd u hu
    omega

/-- The stages of all shorthands after all rounds. -/
theorem stageOf_of_define {defs : List ShorthandDef}
    (hgiven : defs.mapM ShorthandDef.check = .ok given.defs) (h : define defs = .ok table)
    (hacyclic : given.Acyclic) :
    List.Forall₂ (Shorthand.StageOf given (given.defs.length - 1)) given.defs table.defs := by
  rw [define, hgiven] at h
  have hstage : List.Forall₂ (Shorthand.StageOf given (0 + (given.defs.length - 1)))
      given.defs table.defs :=
    invariant_of_rounds (P := fun r t => List.Forall₂ (Shorthand.StageOf given r) given.defs t.defs)
      (fun _ _ _ => stageOf_of_round) (stageOf_zero hacyclic) h
  rwa [Nat.zero_add] at hstage

/-- After all rounds no body calls a shorthand. -/
theorem unresolved_of_stageOf (hacyclic : given.Acyclic)
    (h : List.Forall₂ (Shorthand.StageOf given (given.defs.length - 1)) given.defs table.defs) :
    ∀ s ∈ table.defs, ∀ c ∈ s.body.callees, given.resolve? c = none := by
  intro t ht c hc
  obtain ⟨s, hs⟩ := exists_of_forall₂_right h ht
  by_contra hresolve
  obtain ⟨u, hu⟩ := Option.ne_none_iff_exists'.mp hresolve
  -- such a call would lead further down than there are ranks
  have hlow := hs.rank_lt c hc u hu
  have hhigh := rank_lt_length hacyclic hs.mem
  omega

/-- Definitions none of which refers to itself, directly or through others, are resolved
completely. The definitions keep their names, parameters and kinds, so that the same calls stand for
one. Their bodies call none of the given definitions after all rounds, neither does the expansion of
a predicate or an integer expression, and expanding it again changes nothing. -/
theorem resolved_of_acyclic {defs : List ShorthandDef}
    (hgiven : defs.mapM ShorthandDef.check = .ok given.defs) (h : define defs = .ok table)
    (hacyclic : given.Acyclic) :
    List.Forall₂ Shorthand.CalledLike given.defs table.defs ∧
    (∀ c, table.resolve? c = none ↔ given.resolve? c = none) ∧
    (∀ s ∈ table.defs, ∀ c ∈ s.body.callees, given.resolve? c = none) ∧
    (∀ p p', table.predicate p = .ok p' →
      (∀ c ∈ p'.callees, given.resolve? c = none) ∧ table.predicate p' = .ok p') ∧
    ∀ e e', table.int e = .ok e' →
      (∀ c ∈ e'.callees, given.resolve? c = none) ∧ table.int e' = .ok e' := by
  have hstage := stageOf_of_define hgiven h hacyclic
  have hlike : List.Forall₂ Shorthand.CalledLike given.defs table.defs :=
    hstage.imp fun _ _ hst => hst.toCalledLike
  have hiff := resolve?_eq_none_iff_of_calledLike hlike
  have hbodies := unresolved_of_stageOf hacyclic hstage
  -- whatever is called, nothing that stands for it calls a shorthand
  have hyields : ∀ c, table.Yields (fun d => given.resolve? d = none) c := fun c =>
    ⟨(hiff c).mp, fun s hs => hbodies s (mem_defs_of_resolve? hs)⟩
  refine ⟨hlike, hiff, hbodies, fun p p' hp => ?_, fun e e' he => ?_⟩
  · have hcalls : ∀ c ∈ p'.callees, given.resolve? c = none :=
      (expands_of_predicate p hp).callsOnly fun c _ => hyields c
    exact ⟨hcalls, predicate_of_unresolved p' fun c hc => (hiff c).mpr (hcalls c hc)⟩
  · have hcalls : ∀ c ∈ e'.callees, given.resolve? c = none :=
      (expands_of_int e he).callsOnly fun c _ => hyields c
    exact ⟨hcalls, int_of_unresolved e' fun c hc => (hiff c).mpr (hcalls c hc)⟩

/-! ### A chain of three -/

namespace Sample

/-- `a` contains `x`, and `b` contains the sum of `x` and the first element of `a`. -/
def both : Predicate :=
  .and (.call "contains" [.map (.name "a"), .int (.name "x")])
    (.call "contains"
      [.map (.name "b"), .int (.plus (.call "first" [.map (.name "a")]) (.name "x"))])

/-- Definitions each of which calls the next. -/
def chainDefs : List ShorthandDef :=
  [⟨"both", ["a", "b", "x"], both.toJson.compact⟩,
    ⟨"contains", ["a", "x"], contains.toJson.compact⟩, ⟨"first", ["a"], first.toJson.compact⟩]

/-- The shorthands before they are expanded into each other. -/
def chain : Shorthands :=
  ⟨[⟨"both", ["a", "b", "x"], .predicate both⟩, ⟨"contains", ["a", "x"], .predicate contains⟩,
    ⟨"first", ["a"], .int first⟩]⟩

/-- The definitions of the chain pass the check. -/
theorem check_chain : chainDefs.mapM ShorthandDef.check = .ok chain.defs := by
  have hread : ShorthandBody.ofText? both.toJson.compact = some (.predicate both) := by
    refine ShorthandBody.ofText?_of_predicate ?_ (by decide)
    simp [both, Predicate.and, Predicate.Fits, IntExpr.plus, IntExpr.Fits, IntExpr.name,
      Variable.Fits, Expr.FitsAll, Expr.Fits]
  have hboth : ShorthandDef.check ⟨"both", ["a", "b", "x"], both.toJson.compact⟩ =
      .ok ⟨"both", ["a", "b", "x"], .predicate both⟩ :=
    ShorthandDef.check_mk rfl hread (by cbv)
  have hcontains : ShorthandDef.check ⟨"contains", ["a", "x"], contains.toJson.compact⟩ =
      .ok ⟨"contains", ["a", "x"], .predicate contains⟩ :=
    ShorthandDef.check_mk rfl read_contains (by cbv)
  have hfirst : ShorthandDef.check ⟨"first", ["a"], first.toJson.compact⟩ =
      .ok ⟨"first", ["a"], .int first⟩ :=
    ShorthandDef.check_mk rfl read_first (by cbv)
  rw [chainDefs, List.mapM_cons, hboth, List.mapM_cons, hcontains, List.mapM_cons, hfirst]
  rfl

/-- No shorthand of the chain calls itself, neither directly nor through others. -/
theorem acyclic_chain : chain.Acyclic := by
  refine acyclic_of_decreases (m := fun s => s.params.length) ?_
  decide +kernel

/-- A call of the first shorthand, with a call of the last in an argument, is expanded to a
predicate that calls none of the three. -/
theorem chain_resolved :
    let call : Predicate := .call "both"
      [.map (.name "b"), .map (.name "c"), .int (.call "first" [.map (.name "c")])]
    ∃ table p, chainDefs.mapM ShorthandDef.check = .ok chain.defs ∧
      define chainDefs = .ok table ∧ chain.Acyclic ∧ table.predicate call = .ok p ∧
      .relation "both" ∉ p.callees ∧ .relation "contains" ∉ p.callees ∧
      .function "first" ∉ p.callees ∧ table.predicate p = .ok p := by
  intro call
  obtain ⟨table, p, hdefine, hp⟩ : ∃ table p, define chainDefs = .ok table ∧
      table.predicate call = .ok p := by
    rw [define, check_chain]
    exact ⟨_, _, rfl, rfl⟩
  obtain ⟨-, -, -, hpredicate, -⟩ := resolved_of_acyclic check_chain hdefine acyclic_chain
  obtain ⟨hcalls, hagain⟩ := hpredicate call p hp
  -- a call that is left stands for none of the definitions
  have hleft : ∀ c, (chain.resolve? c).isSome = true → c ∉ p.callees := by
    intro c hc hmem
    rw [hcalls c hmem] at hc
    cases hc
  exact ⟨table, p, check_chain, hdefine, acyclic_chain, hp, hleft _ rfl, hleft _ rfl, hleft _ rfl,
    hagain⟩

end Sample

end Shorthands

end GuardedCommand
