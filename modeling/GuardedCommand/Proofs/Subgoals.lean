import GuardedCommand.Proofs.Changes
import GuardedCommand.Proofs.Derivation

/-! # Subgoals of a derivation

The derivation of the obligations of a program is a tree. Its nodes are triples with the context in
which they are met and the number of auxiliary names that were used before; the premises of a rule
lead from a node to the next ones. A node is found by its address, the places of the premises that
lead to it.

* `Subgoal`, `Subgoal.result`: a node and the obligations it gives.
* `Subgoal.root`: the node that the derivation for a program starts from.
* `Subgoal.Child`, `Subgoal.At`: a premise of a node, and the nodes below it by their addresses.
* `Subgoal.At.invariant`: what every step down the tree preserves holds everywhere in it.
* `Subgoal.At.exists_result`: all nodes of a tree that gives obligations give a stretch of them.
* `Subgoal.exists_origin`: every obligation comes from a node.
-/

namespace GuardedCommand

/-- A triple that comes up in a derivation. -/
structure Subgoal where
  /-- What is to be derived. -/
  triple : Triple
  /-- The steps that lead to it, outermost first. -/
  context : List Frame
  /-- The number of auxiliary names used before. -/
  used : Nat

variable {specs : List LoopSpec} {os : List Obligation} {n n' : Nat}

/-! ## Derivations one after the other -/

namespace Derivation

variable {derive : Premise → Nat → Derivation} {ps : List Premise}

/-- A sequence of derivations gives each premise a stretch of the obligations, and the auxiliary
names that follow those of the premises before it. -/
theorem exists_of_sequence_getElem? {p : Premise} {i : Nat} (hp : ps[i]? = some p)
    (h : sequence derive ps n = .ok (os, n')) :
    ∃ before n₁ share n₂ after, sequence derive (ps.take i) n = .ok (before, n₁) ∧
      derive p n₁ = .ok (share, n₂) ∧ sequence derive (ps.drop (i + 1)) n₂ = .ok (after, n') ∧
      os = before ++ share ++ after := by
  induction ps generalizing i n os with
  | nil => cases hp
  | cons q ps ih =>
    obtain ⟨⟨first, n₁⟩, hfirst, h⟩ := exists_of_bind_eq_ok h
    obtain ⟨⟨rest, n₂⟩, hrest, h⟩ := exists_of_bind_eq_ok h
    cases h
    cases i with
    | zero =>
      cases hp
      exact ⟨[], n, first, n₁, rest, rfl, hfirst, hrest, rfl⟩
    | succ i =>
      obtain ⟨before, m₁, share, m₂, after, hbefore, hshare, hafter, rfl⟩ := ih hp hrest
      refine ⟨first ++ before, m₁, share, m₂, after, ?_, hshare, hafter, by simp⟩
      rw [List.take_succ_cons, sequence, hfirst]
      simp only [hbefore, bind, Except.bind]

/-- Every obligation of a sequence of derivations is one of a premise. -/
theorem exists_of_mem_sequence {o : Obligation} (h : sequence derive ps n = .ok (os, n'))
    (ho : o ∈ os) : ∃ (i : Nat) (p : Premise), ps[i]? = some p ∧
      ∃ before n₁ share n₂, sequence derive (ps.take i) n = .ok (before, n₁) ∧
        derive p n₁ = .ok (share, n₂) ∧ o ∈ share := by
  induction ps generalizing n os with
  | nil =>
    cases h
    cases ho
  | cons q ps ih =>
    obtain ⟨⟨first, n₁⟩, hfirst, h⟩ := exists_of_bind_eq_ok h
    obtain ⟨⟨rest, n₂⟩, hrest, h⟩ := exists_of_bind_eq_ok h
    cases h
    rcases List.mem_append.mp ho with ho | ho
    · exact ⟨0, q, rfl, [], n, first, n₁, rfl, hfirst, ho⟩
    · obtain ⟨i, p, hp, before, m₁, share, m₂, hbefore, hshare, ho⟩ := ih hrest ho
      refine ⟨i + 1, p, hp, first ++ before, m₁, share, m₂, ?_, hshare, ho⟩
      rw [List.take_succ_cons, sequence, hfirst]
      simp only [hbefore, bind, Except.bind]

/-- Auxiliary names are only ever added. -/
theorem le_of_sequence (hderive : ∀ p ∈ ps, ∀ n os n', derive p n = .ok (os, n') → n ≤ n')
    (h : sequence derive ps n = .ok (os, n')) : n ≤ n' := by
  induction ps generalizing n os with
  | nil =>
    cases h
    exact Nat.le_refl _
  | cons p ps ih =>
    obtain ⟨⟨first, n₁⟩, hfirst, h⟩ := exists_of_bind_eq_ok h
    obtain ⟨⟨rest, n₂⟩, hrest, h⟩ := exists_of_bind_eq_ok h
    cases h
    have hle := hderive p List.mem_cons_self _ _ _ hfirst
    exact hle.trans (ih (fun q hq => hderive q (List.mem_cons_of_mem p hq)) hrest)

end Derivation

/-- The subgoal of a premise that is met after `n` auxiliary names; a fact has none. -/
def Premise.subgoal? (context : List Frame) (p : Premise) (n : Nat) : Option Subgoal :=
  match p.goal with
  | .fact _ | .triple (.error _) => none
  | .triple (.ok t) => some ⟨t, context ++ [p.frame], n⟩
  | .auxiliary stem t => some ⟨t (auxiliaryName stem n), context ++ [p.frame], n + 1⟩

namespace Subgoal

/-- The obligations of a subgoal, with the number of auxiliary names used after them. -/
def result (specs : List LoopSpec) (c : Subgoal) : Derivation :=
  c.triple.obligations specs c.context c.used

/-- The premises of the rule for a subgoal. -/
def premises (specs : List LoopSpec) (c : Subgoal) : Except WpError (List Premise) :=
  (Rule.of c.triple.commands).premises specs c.triple

/-- The premise `p` at place `i` of the rule for `c` is met after `n` auxiliary names. -/
def Meets (specs : List LoopSpec) (c : Subgoal) (i : Nat) (p : Premise) (n : Nat) : Prop :=
  ∃ ps before, c.premises specs = .ok ps ∧ ps[i]? = some p ∧
    Derivation.sequence (Premise.obligations specs c.context) (ps.take i) c.used =
      .ok (before, n)

/-- `d` is the subgoal of the premise at place `i` of the rule for `c`. -/
def Child (specs : List LoopSpec) (c : Subgoal) (i : Nat) (d : Subgoal) : Prop :=
  ∃ p n, c.Meets specs i p n ∧ p.subgoal? c.context n = some d

/-- `c.At specs path d` says that the premises at the places `path`, one below the other, lead from
`c` to `d`. -/
inductive At (specs : List LoopSpec) : Subgoal → List Nat → Subgoal → Prop
  | here (c : Subgoal) : At specs c [] c
  | step {c d e : Subgoal} {i : Nat} {path : List Nat} (h : c.Child specs i d)
    (hpath : At specs d path e) : At specs c (i :: path) e

/-- The obligation of a subgoal whose commands are elementary. It has a context, even if the subgoal
has none. -/
structure Leaf (c : Subgoal) (o : Obligation) : Prop where
  /-- The precondition implies the weakest precondition. -/
  predicate : ∃ pre, Command.wpSeq c.triple.post c.triple.commands = .ok pre ∧
    o.predicate = c.triple.pre.implies pre
  /-- At most a frame for the sequence is added to the context. -/
  context : o.context = c.context ∨
    ∃ f : Frame, f.kind = .sequence ∧ o.context = c.context ++ [f]
  /-- Something is said about where the obligation comes from. -/
  context_ne_nil : o.context ≠ []

/-- Where an obligation comes from: an elementary sequence, or a fact among the premises. -/
inductive Origin (specs : List LoopSpec) (c : Subgoal) (o : Obligation) : Prop
  | leaf (h : c.Leaf o)
  | fact {ps : List Premise} {p : Premise} {q : Predicate} (hps : c.premises specs = .ok ps)
    (hp : p ∈ ps) (hgoal : p.goal = .fact q) (ho : o = ⟨q, c.context ++ [p.frame]⟩)

/-- The subgoal that the derivation for a program starts from. -/
def root (spec : Spec) (program : Program) : Subgoal where
  triple := ⟨spec.precondition, spec.postcondition, Statement.numberSeq 0 program.statements⟩
  context := []
  used := 0

/-- The obligations of a program are those of the subgoal it starts from. -/
theorem exists_result_of_generate {spec : Spec} {program : Program}
    (h : generate spec program = .ok os) :
    ∃ n, (root spec program).result spec.loops = .ok (os, n) :=
  exists_of_generate h

variable {c d e : Subgoal} {i j : Nat} {path : List Nat} {p q : Premise} {ps : List Premise}

/-- What every premise passes on to its subgoal is found at every address. -/
theorem At.invariant {P : Subgoal → Prop} (hstep : ∀ c i d, c.Child specs i d → P c → P d)
    (h : c.At specs path d) (hc : P c) : P d := by
  induction h with
  | here => exact hc
  | step hchild _ ih => exact ih (hstep _ _ _ hchild hc)

/-! ## Results -/

/-- A premise gives its fact or the obligations of its subgoal. -/
theorem cases_of_obligations {context : List Frame}
    (h : p.obligations specs context n = .ok (os, n')) :
    (∃ q, p.goal = .fact q ∧ os = [⟨q, context ++ [p.frame]⟩] ∧ n' = n) ∨
      ∃ d, p.subgoal? context n = some d ∧ d.result specs = .ok (os, n') := by
  unfold Premise.obligations at h
  unfold Premise.subgoal?
  split at h
  · next q hgoal =>
    cases h
    exact .inl ⟨q, hgoal, rfl, rfl⟩
  · cases h
  · next t hgoal =>
    rw [hgoal]
    exact .inr ⟨_, rfl, h⟩
  · next stem t hgoal =>
    rw [hgoal]
    exact .inr ⟨_, rfl, h⟩

/-- The context of a subgoal ends with the frame of its premise. -/
theorem context_of_subgoal? {context : List Frame} (h : p.subgoal? context n = some d) :
    d.context = context ++ [p.frame] := by
  unfold Premise.subgoal? at h
  split at h
  · cases h
  · cases h
  · cases h
    rfl
  · cases h
    rfl

/-- No auxiliary name is given back. -/
theorem le_used_of_subgoal? {context : List Frame} (h : p.subgoal? context n = some d) :
    n ≤ d.used := by
  unfold Premise.subgoal? at h
  split at h
  · cases h
  · cases h
  · cases h
    exact Nat.le_refl n
  · cases h
    exact Nat.le_succ n

/-- The obligations of a premise with a subgoal are those of the subgoal. -/
theorem obligations_of_subgoal? {context : List Frame} (h : p.subgoal? context n = some d) :
    p.obligations specs context n = d.result specs := by
  unfold Premise.subgoal? at h
  split at h
  · cases h
  · cases h
  · next t hgoal =>
    cases h
    rw [Premise.obligations, hgoal]
    rfl
  · next stem t hgoal =>
    cases h
    rw [Premise.obligations, hgoal]
    rfl

/-- Where there are premises, the obligations are theirs. -/
theorem sequence_of_result (h : c.result specs = .ok (os, n')) (hps : c.premises specs = .ok ps)
    (hne : ps ≠ []) :
    Derivation.sequence (Premise.obligations specs c.context) ps c.used = .ok (os, n') := by
  have hempty : Rule.of c.triple.commands ≠ .empty := by
    intro hrule
    rw [premises, hrule] at hps
    cases hps
    exact hne rfl
  have helem : Rule.of c.triple.commands ≠ .elementary := by
    intro hrule
    rw [premises, hrule] at hps
    cases hps
    exact hne rfl
  rw [result, Triple.obligations_of_premises hempty helem] at h
  obtain ⟨ps', hps', h⟩ := exists_of_bind_eq_ok h
  obtain rfl : ps = ps' := Except.ok.inj (hps.symm.trans hps')
  exact h

/-- What a subgoal that the rules for choices and loops apply to looks like. -/
theorem cases_of_premises {ps : List Premise} (hps : c.premises specs = .ok ps)
    (hp : p ∈ ps) :
    (∃ before g after,
      c.triple.commands = before ++ .cond g.guards g.bodies g.range :: after ∧
      Rule.of c.triple.commands = .choice before g after ∧
      ps = g.premises before after c.triple.pre c.triple.post) ∨
    ∃ before l after spec,
      c.triple.commands = before ++ .loop l.index l.guards l.bodies l.range :: after ∧
      Rule.of c.triple.commands = .loop before l after ∧ specs[l.index - 1]? = some spec ∧
      ps = l.premises spec before after c.triple.pre c.triple.post := by
  have happlies := Rule.applies_of c.triple.commands
  rw [premises] at hps
  cases hrule : Rule.of c.triple.commands with
  | empty | elementary =>
    rw [hrule] at hps
    -- Without a choice or a loop there are no premises.
    cases hps
    cases hp
  | choice before g after =>
    rw [hrule] at hps happlies
    cases hps
    generalize c.triple.commands = cs at happlies
    cases happlies
    exact .inl ⟨before, g, after, rfl, rfl, rfl⟩
  | loop before l after =>
    rw [hrule] at hps happlies
    simp only [Rule.premises] at hps
    split at hps
    · next spec hspec =>
      cases hps
      generalize c.triple.commands = cs at happlies
      cases happlies
      exact .inr ⟨before, l, after, spec, rfl, rfl, hspec, rfl⟩
    · cases hps

/-- A subgoal that gives obligations is a leaf with one of them, or they are those of its
premises. -/
theorem cases_of_result (h : c.result specs = .ok (os, n')) :
    (∃ o, os = [o] ∧ n' = c.used ∧ c.Leaf o) ∨
      ∃ ps, c.premises specs = .ok ps ∧
        Derivation.sequence (Premise.obligations specs c.context) ps c.used = .ok (os, n') := by
  have happlies := Rule.applies_of c.triple.commands
  cases hrule : Rule.of c.triple.commands with
  | empty =>
    rw [hrule] at happlies
    rw [result, Triple.obligations_of_empty hrule] at h
    cases h
    refine .inl ⟨_, rfl, rfl, ⟨c.triple.post, ?_, rfl⟩, ?_, ?_⟩
    · generalize c.triple.commands = cs at happlies
      cases happlies
      rfl
    · -- only an empty program has no context, and gets a frame of its own
      cases hcontext : c.context with
      | nil => exact .inr ⟨_, rfl, rfl⟩
      | cons f context => exact .inl rfl
    · cases hcontext : c.context with
      | nil => exact List.cons_ne_nil _ _
      | cons f context => exact List.cons_ne_nil _ _
  | elementary =>
    rw [result, Triple.obligations_of_elementary hrule] at h
    obtain ⟨pre, hpre, h⟩ := exists_of_bind_eq_ok h
    cases h
    exact .inl ⟨_, rfl, rfl, ⟨pre, hpre, rfl⟩, .inr ⟨_, rfl, rfl⟩,
      List.append_ne_nil_of_right_ne_nil _ (List.cons_ne_nil _ _)⟩
  | choice before g after | loop before l after =>
    rw [result, Triple.obligations_of_premises (by simp [hrule]) (by simp [hrule])] at h
    obtain ⟨ps, hps, h⟩ := exists_of_bind_eq_ok h
    exact .inr ⟨ps, hps, h⟩

/-- Subgoals of premises are lighter. -/
theorem weight_lt_of_subgoal? {context : List Frame} (hps : c.premises specs = .ok ps)
    (hp : p ∈ ps) (h : p.subgoal? context n = some d) : d.triple.weight < c.triple.weight := by
  have hbelow := Rule.below_of_mem_premises hps hp
  unfold Premise.subgoal? at h
  split at h
  · cases h
  · cases h
  · next t hgoal =>
    cases h
    rw [hgoal] at hbelow
    exact hbelow t rfl
  · next stem t hgoal =>
    cases h
    rw [hgoal] at hbelow
    exact hbelow _

/-- To relate every subgoal to its obligations and to the number of auxiliary names after them, it
is enough to do so for leaves and for a rule whose premises have subgoals that are related to
theirs. -/
theorem result_induction {M : Subgoal → List Obligation → Nat → Prop}
    (leaf : ∀ c o, c.result specs = .ok ([o], c.used) → c.Leaf o → M c [o] c.used)
    (node : ∀ c ps os n', c.result specs = .ok (os, n') → c.premises specs = .ok ps →
      Derivation.sequence (Premise.obligations specs c.context) ps c.used = .ok (os, n') →
      (∀ p ∈ ps, ∀ n d share m, p.subgoal? c.context n = some d →
        d.result specs = .ok (share, m) → M d share m) → M c os n')
    (h : c.result specs = .ok (os, n')) : M c os n' := by
  induction hw : c.triple.weight using Nat.strongRecOn generalizing c os n' with
  | _ w ih =>
    subst hw
    rcases cases_of_result h with ⟨o, rfl, rfl, hleaf⟩ | ⟨ps, hps, hseq⟩
    · exact leaf c o h hleaf
    · refine node c ps os n' h hps hseq fun p hp n d share m hd hresult => ?_
      exact ih _ (weight_lt_of_subgoal? hps hp hd) hresult rfl

/-- Auxiliary names are only ever added. -/
theorem used_le_of_result (h : c.result specs = .ok (os, n')) : c.used ≤ n' := by
  refine result_induction (M := fun c _ n' => c.used ≤ n') ?_ ?_ h
  · intro c o _ _
    exact Nat.le_refl _
  · intro c ps os n' _ _ hseq ih
    refine Derivation.le_of_sequence (fun p hp n share m hshare => ?_) hseq
    rcases cases_of_obligations hshare with ⟨q, -, -, rfl⟩ | ⟨d, hd, hresult⟩
    · exact Nat.le_refl _
    · exact (le_used_of_subgoal? hd).trans (ih p hp n d share m hd hresult)

/-- Every obligation comes from somewhere in the tree. -/
theorem exists_origin (h : c.result specs = .ok (os, n')) {o : Obligation} (ho : o ∈ os) :
    ∃ path d share m, c.At specs path d ∧ d.result specs = .ok (share, m) ∧ o ∈ share ∧
      d.Origin specs o := by
  refine result_induction (M := fun c os _ => ∀ o ∈ os, ∃ path d share m, c.At specs path d ∧
    d.result specs = .ok (share, m) ∧ o ∈ share ∧ d.Origin specs o) ?_ ?_ h o ho
  · intro c o hresult hleaf o' ho'
    obtain rfl := List.mem_singleton.mp ho'
    exact ⟨[], c, _, _, .here c, hresult, ho', .leaf hleaf⟩
  · intro c ps os n' hresult hps hseq ih o ho
    obtain ⟨i, p, hp, before, n, share, m, hbefore, hshare, hmem⟩ :=
      Derivation.exists_of_mem_sequence hseq ho
    have hps' := List.mem_of_getElem? hp
    rcases cases_of_obligations hshare with ⟨q, hgoal, rfl, -⟩ | ⟨d, hd, hresult'⟩
    · exact ⟨[], c, _, _, .here c, hresult, ho, .fact hps hps' hgoal (List.mem_singleton.mp hmem)⟩
    · obtain ⟨path, e, share', m', hpath, horigin⟩ := ih p hps' n d share m hd hresult' o hmem
      exact ⟨i :: path, e, share', m', .step ⟨p, n, ⟨ps, before, hps, hp, hbefore⟩, hd⟩ hpath,
        horigin⟩

/-! ## Stretches of obligations -/

/-- The obligations of a premise give back no auxiliary name. -/
theorem le_of_obligations {context : List Frame}
    (h : p.obligations specs context n = .ok (os, n')) : n ≤ n' := by
  rcases cases_of_obligations h with ⟨q, -, -, rfl⟩ | ⟨d, hd, hresult⟩
  · exact Nat.le_refl _
  · exact (le_used_of_subgoal? hd).trans (used_le_of_result hresult)

/-- At most one premise is met at an index, with one number. -/
theorem Meets.unique {m : Nat} (hp : c.Meets specs i p n) (hq : c.Meets specs i q m) :
    p = q ∧ n = m := by
  obtain ⟨ps, before, hps, hp, hbefore⟩ := hp
  obtain ⟨ps', before', hps', hq, hbefore'⟩ := hq
  obtain rfl : ps = ps' := Except.ok.inj (hps.symm.trans hps')
  obtain ⟨-, rfl⟩ : before = before' ∧ n = m := by simpa using hbefore.symm.trans hbefore'
  exact ⟨Option.some.inj (hp.symm.trans hq), rfl⟩

/-- A premise of a subgoal that gives obligations gives a stretch of them. -/
theorem Meets.exists_share (h : c.Meets specs i p n) (hc : c.result specs = .ok (os, n')) :
    ∃ share m, p.obligations specs c.context n = .ok (share, m) ∧ share <:+: os ∧
      c.used ≤ n ∧ m ≤ n' := by
  obtain ⟨ps, before, hps, hp, hbefore⟩ := h
  have hseq := sequence_of_result hc hps (List.ne_nil_of_mem (List.mem_of_getElem? hp))
  obtain ⟨before', n₁, share, m, after, hbefore', hshare, hafter, rfl⟩ :=
    Derivation.exists_of_sequence_getElem? hp hseq
  obtain ⟨rfl, rfl⟩ : before = before' ∧ n = n₁ := by
    simpa using hbefore.symm.trans hbefore'
  refine ⟨share, m, hshare, ⟨before, after, rfl⟩, ?_, ?_⟩
  · exact Derivation.le_of_sequence (fun _ _ _ _ _ => le_of_obligations) hbefore
  · exact Derivation.le_of_sequence (fun _ _ _ _ _ => le_of_obligations) hafter

/-- A later premise is met after all auxiliary names of an earlier one. -/
theorem Meets.le_of_lt {m m' : Nat} (hi : c.Meets specs i p n)
    (hshare : p.obligations specs c.context n = .ok (os, m)) (hj : c.Meets specs j q m')
    (hij : i < j) : m ≤ m' := by
  obtain ⟨ps, before, hps, hp, hbefore⟩ := hi
  obtain ⟨ps', before', hps', -, hbefore'⟩ := hj
  obtain rfl : ps = ps' := Except.ok.inj (hps.symm.trans hps')
  -- the earlier premise is one of those in front of the later one
  have hp' : (ps.take j)[i]? = some p := by rw [List.getElem?_take_of_lt hij, hp]
  obtain ⟨before₁, n₁, share, m₁, after, hbefore₁, hshare₁, hafter, -⟩ :=
    Derivation.exists_of_sequence_getElem? hp' hbefore'
  rw [List.take_take, Nat.min_eq_left hij.le] at hbefore₁
  obtain ⟨rfl, rfl⟩ : before = before₁ ∧ n = n₁ := by
    simpa using hbefore.symm.trans hbefore₁
  obtain ⟨rfl, rfl⟩ : os = share ∧ m = m₁ := by simpa using hshare.symm.trans hshare₁
  exact Derivation.le_of_sequence (fun _ _ _ _ _ => le_of_obligations) hafter

/-- Everywhere in the tree of a subgoal that gives obligations there are obligations, which are a
stretch of those of the subgoal. -/
theorem At.exists_result (h : c.At specs path d) (hc : c.result specs = .ok (os, n')) :
    ∃ share m, d.result specs = .ok (share, m) ∧ share <:+: os ∧ c.used ≤ d.used ∧ m ≤ n' := by
  induction h generalizing os n' with
  | here c => exact ⟨os, n', hc, List.infix_rfl, Nat.le_refl _, Nat.le_refl _⟩
  | step hchild _ ih =>
    obtain ⟨p, n, hmeets, hd⟩ := hchild
    obtain ⟨share, m, hshare, hinfix, hn, hm⟩ := hmeets.exists_share hc
    rw [obligations_of_subgoal? hd] at hshare
    obtain ⟨share', m', hresult, hinfix', hused, hm'⟩ := ih hshare
    exact ⟨share', m', hresult, hinfix'.trans hinfix,
      hn.trans ((le_used_of_subgoal? hd).trans hused), hm'.trans hm⟩

/-! ## Addresses -/

/-- At most one subgoal is the child at an index. -/
theorem Child.unique (hd : c.Child specs i d) (he : c.Child specs i e) : d = e := by
  obtain ⟨p, n, hp, hd⟩ := hd
  obtain ⟨q, m, hq, he⟩ := he
  obtain ⟨rfl, rfl⟩ := hp.unique hq
  exact Option.some.inj (hd.symm.trans he)

/-- The context of a subgoal begins every context below it. -/
theorem At.context_prefix (h : c.At specs path d) : c.context <+: d.context := by
  induction h with
  | here c => exact List.prefix_rfl
  | step hchild _ ih =>
    obtain ⟨p, n, -, hd⟩ := hchild
    rw [context_of_subgoal? hd] at ih
    exact (List.prefix_append _ _).trans ih

/-! ## Subgoals with an auxiliary name

A mark may be put on subgoals that are about a new auxiliary name. The number of names that are used
then tells them apart. -/

/-- Subgoals with the mark `S` are met with a new auxiliary name. -/
def Marks (specs : List LoopSpec) (S : Subgoal → Prop) : Prop :=
  ∀ c i p n d, Meets specs c i p n → p.subgoal? c.context n = some d → S d → n < d.used

variable {S : Subgoal → Prop}

/-- Marked subgoals below a subgoal are met after the names that it has used. -/
theorem At.used_lt (hS : Marks specs S) (hpath : path ≠ []) (h : c.At specs path d)
    (hc : c.result specs = .ok (os, n')) (hd : S d) : c.used < d.used := by
  induction h generalizing os n' with
  | here c => exact absurd rfl hpath
  | @step c d' e i path hchild hpath' ih =>
    obtain ⟨p, n, hmeets, hsub⟩ := hchild
    obtain ⟨share, m, hshare, -, hn, -⟩ := hmeets.exists_share hc
    rw [obligations_of_subgoal? hsub] at hshare
    cases hpath' with
    | here => exact Nat.lt_of_le_of_lt hn (hS _ _ _ _ _ hmeets hsub hd)
    | step hchild' hpath' =>
      have hlt := ih (List.cons_ne_nil _ _) hshare hd
      exact Nat.lt_of_le_of_lt (hn.trans (le_used_of_subgoal? hsub)) hlt

/-- Of two marked subgoals under different premises the later one has used more names. -/
theorem At.used_lt_of_lt {path' : List Nat} {d' e' : Subgoal} (hS : Marks specs S)
    (hc : c.result specs = .ok (os, n')) (hij : i < j) (hd : c.Child specs i d)
    (he : d.At specs path e) (hd' : c.Child specs j d') (he' : d'.At specs path' e')
    (hmark : S e') : e.used < e'.used := by
  obtain ⟨p, n, hp, hd⟩ := hd
  obtain ⟨q, m, hq, hd'⟩ := hd'
  obtain ⟨share, n₁, hshare, -, -, -⟩ := hp.exists_share hc
  obtain ⟨share', n₂, hshare', -, -, -⟩ := hq.exists_share hc
  have hle := hp.le_of_lt hshare hq hij
  rw [obligations_of_subgoal? hd] at hshare
  rw [obligations_of_subgoal? hd'] at hshare'
  obtain ⟨_, _, hresult, -, -, hn₁⟩ := he.exists_result hshare
  have hfirst := (used_le_of_result hresult).trans (hn₁.trans hle)
  cases he' with
  | here => exact Nat.lt_of_le_of_lt hfirst (hS _ _ _ _ _ hq hd' hmark)
  | step hchild hpath =>
    have hlt := At.used_lt hS (List.cons_ne_nil _ _) (.step hchild hpath) hshare' hmark
    exact Nat.lt_of_le_of_lt (hfirst.trans (le_used_of_subgoal? hd')) hlt

/-- Different addresses of marked subgoals have different numbers. -/
theorem At.path_unique {path' : List Nat} {d' : Subgoal} (hS : Marks specs S)
    (hc : c.result specs = .ok (os, n')) (h : c.At specs path d) (h' : c.At specs path' d')
    (hd : S d) (hd' : S d') (hused : d.used = d'.used) : path = path' := by
  induction h generalizing path' os n' with
  | here c =>
    by_contra hne
    exact absurd hused (At.used_lt hS (Ne.symm hne) h' hc hd').ne
  | @step c d₁ e i path hchild hpath ih =>
    cases h' with
    | here =>
      have hlt := At.used_lt hS (List.cons_ne_nil i path) (.step hchild hpath) hc hd
      exact absurd hused hlt.ne'
    | @step _ d₂ _ j path' hchild' hpath' =>
      rcases Nat.lt_trichotomy i j with hij | rfl | hij
      · exact absurd hused (At.used_lt_of_lt hS hc hij hchild hpath hchild' hpath' hd').ne
      · obtain rfl := hchild.unique hchild'
        obtain ⟨p, n, hmeets, hsub⟩ := hchild
        obtain ⟨share, m, hshare, -, -, -⟩ := hmeets.exists_share hc
        rw [obligations_of_subgoal? hsub] at hshare
        rw [ih hshare hpath' hd hused]
      · exact absurd hused (At.used_lt_of_lt hS hc hij hchild' hpath' hchild hpath hd).ne'

end Subgoal

end GuardedCommand
