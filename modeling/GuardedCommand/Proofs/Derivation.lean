import GuardedCommand.Obligation.Generate
import GuardedCommand.Proofs.Commands
import Mathlib.Data.List.Forall2

/-! # Induction on the derivation of proof obligations

What is proved about all proof obligations of a triple is proved by induction on the rules that led
to them. Every premise of a rule gives its own share of the obligations.

* `Triple.derivation_induction`: the induction, with the share of each premise and its context.
* `Triple.obligations_induction`: the induction for what does not depend on contexts.
* `exists_of_generate`: the obligations of a program are those of a triple.
* `Choice.Follows`, `Loop.Follows`: what the premises of a rule say once their obligations hold.
* `Triple.follows_induction`: the induction for obligations that hold.
-/

namespace GuardedCommand

/-- The obligations `os` are the share of a goal, if `M` relates triples to their obligations. -/
def Goal.Yields (M : Triple → List Obligation → Prop) : Goal → List Obligation → Prop
  | .fact q, os => ∃ context, os = [⟨q, context⟩]
  | .triple (.ok t), os => M t os
  | .triple (.error _), _ => False
  | .auxiliary stem t, os => ∃ n, M (t (auxiliaryName stem n)) os

/-- The obligations are made up of the shares of the premises, in their order. -/
def Covers (M : Triple → List Obligation → Prop) (ps : List Premise) (obs : List Obligation) :
    Prop :=
  ∃ shares : List (List Obligation),
    obs = shares.flatten ∧ List.Forall₂ (fun p os => p.goal.Yields M os) ps shares

/-- The obligations `os` are the share of a premise in a context, if `M` relates triples and their
contexts to their obligations. -/
def Premise.YieldsIn (M : Triple → List Frame → List Obligation → Prop) (context : List Frame)
    (p : Premise) (os : List Obligation) : Prop :=
  match p.goal with
  | .fact q => os = [⟨q, context ++ [p.frame]⟩]
  | .triple (.ok t) => M t (context ++ [p.frame]) os
  | .triple (.error _) => False
  | .auxiliary stem t => ∃ n, M (t (auxiliaryName stem n)) (context ++ [p.frame]) os

/-- The obligations are made up of the shares of the premises in a context, in their order. -/
def CoversIn (M : Triple → List Frame → List Obligation → Prop) (context : List Frame)
    (ps : List Premise) (obs : List Obligation) : Prop :=
  ∃ shares : List (List Obligation),
    obs = shares.flatten ∧ List.Forall₂ (fun p os => p.YieldsIn M context os) ps shares

variable {M : Triple → List Obligation → Prop} {F : Predicate → Prop} {ps : List Premise}
  {obs : List Obligation} {specs : List LoopSpec}

/-- Every obligation belongs to the share of a premise. -/
theorem CoversIn.exists_of_mem {M : Triple → List Frame → List Obligation → Prop}
    {context : List Frame} (h : CoversIn M context ps obs) {o : Obligation} (ho : o ∈ obs) :
    ∃ p ∈ ps, ∃ os, p.YieldsIn M context os ∧ o ∈ os := by
  obtain ⟨shares, rfl, hshares⟩ := h
  induction hshares with
  | nil => cases ho
  | @cons p os _ _ hyields _ ih =>
    rw [List.flatten_cons, List.mem_append] at ho
    rcases ho with ho | ho
    · exact ⟨p, List.mem_cons_self, os, hyields, ho⟩
    · obtain ⟨p', hp', hrest⟩ := ih ho
      exact ⟨p', List.mem_cons_of_mem p hp', hrest⟩

/-- Every premise has a share of the obligations. -/
theorem CoversIn.exists_share {M : Triple → List Frame → List Obligation → Prop}
    {context : List Frame} (h : CoversIn M context ps obs) {p : Premise} (hp : p ∈ ps) :
    ∃ os, p.YieldsIn M context os ∧ os ⊆ obs := by
  obtain ⟨shares, rfl, hshares⟩ := h
  induction hshares with
  | nil => cases hp
  | @cons p' os _ _ hyields _ ih =>
    rw [List.flatten_cons]
    rcases List.mem_cons.mp hp with rfl | hp
    · exact ⟨os, hyields, List.subset_append_left _ _⟩
    · obtain ⟨os', hos', hsubset⟩ := ih hp
      exact ⟨os', hos', List.subset_append_of_subset_right _ hsubset⟩

/-- Where contexts do not matter, they can be left out. -/
theorem CoversIn.covers {context : List Frame}
    (h : CoversIn (fun t _ os => M t os) context ps obs) : Covers M ps obs := by
  obtain ⟨shares, hobs, hshares⟩ := h
  refine ⟨shares, hobs, hshares.imp fun p os hyields => ?_⟩
  unfold Premise.YieldsIn at hyields
  split at hyields
  · next hg =>
    rw [hg]
    exact ⟨_, hyields⟩
  · next hg =>
    rw [hg]
    exact hyields
  · exact hyields.elim
  · next hg =>
    rw [hg]
    exact hyields

/-- A goal yields the same obligations for a weaker relation between triples and obligations. -/
theorem Goal.Yields.mono {M' : Triple → List Obligation → Prop} {g : Goal} {os : List Obligation}
    (h : g.Yields M os) (hM : ∀ t os, M t os → M' t os) : g.Yields M' os := by
  match g, h with
  | .fact _, h => exact h
  | .triple (.ok t), h => exact hM t os h
  | .auxiliary stem t, ⟨n, h⟩ => exact ⟨n, hM _ os h⟩

/-- Premises are covered in the same way for a weaker relation between triples and obligations. -/
theorem Covers.mono {M' : Triple → List Obligation → Prop} (h : Covers M ps obs)
    (hM : ∀ t os, M t os → M' t os) : Covers M' ps obs := by
  obtain ⟨shares, hobs, hshares⟩ := h
  exact ⟨shares, hobs, hshares.imp fun _ _ hyields => hyields.mono hM⟩

/-- If `F` holds of all predicates of the share of each premise exactly if `G` holds of the premise,
it holds of all obligations exactly if `G` holds of all premises. -/
theorem Covers.forall_iff {G : Premise → Prop} (h : Covers M ps obs)
    (hG : ∀ p ∈ ps, ∀ os, p.goal.Yields M os → ((∀ o ∈ os, F o.predicate) ↔ G p)) :
    (∀ o ∈ obs, F o.predicate) ↔ ∀ p ∈ ps, G p := by
  obtain ⟨shares, rfl, hshares⟩ := h
  induction hshares with
  | nil => simp
  | cons hyields _ ih =>
    rw [List.flatten_cons, List.forall_mem_append, List.forall_mem_cons,
      hG _ List.mem_cons_self _ hyields, ih fun p hp => hG p (List.mem_cons_of_mem _ hp)]

/-- Deriving one premise after the other gives each its share. -/
theorem coversIn_of_sequence {M : Triple → List Frame → List Obligation → Prop}
    {context : List Frame} {derive : Premise → Nat → Derivation} {n n' : Nat}
    (h : Derivation.sequence derive ps n = .ok (obs, n'))
    (hM : ∀ p ∈ ps, ∀ n os n', derive p n = .ok (os, n') → p.YieldsIn M context os) :
    CoversIn M context ps obs := by
  induction ps generalizing obs n with
  | nil =>
    cases h
    exact ⟨[], rfl, .nil⟩
  | cons p ps ih =>
    obtain ⟨⟨first, n₁⟩, hfirst, h⟩ := exists_of_bind_eq_ok h
    obtain ⟨⟨rest, n₂⟩, hrest, h⟩ := exists_of_bind_eq_ok h
    cases h
    obtain ⟨shares, rfl, hshares⟩ := ih hrest fun p hp => hM p (List.mem_cons_of_mem _ hp)
    exact ⟨first :: shares, rfl, .cons (hM p List.mem_cons_self n first n₁ hfirst) hshares⟩

/-- A choice or a loop has premises, and its obligations are their shares, if lighter triples are
related to theirs. -/
theorem Triple.coversIn_of_obligations {M : Triple → List Frame → List Obligation → Prop}
    {t : Triple} {context : List Frame} {n n' : Nat}
    (hempty : Rule.of t.commands ≠ .empty) (helem : Rule.of t.commands ≠ .elementary)
    (h : t.obligations specs context n = .ok (obs, n'))
    (hM : ∀ t' context n os n', t'.weight < t.weight →
      t'.obligations specs context n = .ok (os, n') → M t' context os) :
    ∃ ps, (Rule.of t.commands).premises specs t = .ok ps ∧ CoversIn M context ps obs := by
  rw [Triple.obligations_of_premises hempty helem] at h
  obtain ⟨ps, hps, hseq⟩ := exists_of_bind_eq_ok h
  refine ⟨ps, hps, coversIn_of_sequence hseq fun p hp n os n' hp' => ?_⟩
  have hbelow := Rule.below_of_mem_premises hps hp
  unfold Premise.obligations at hp'
  unfold Premise.YieldsIn
  split at hp'
  · -- a fact is its own obligation
    next hg =>
    cases hp'
    rw [hg]
  · -- a triple that could not be formed has none
    cases hp'
  · next hg =>
    rw [hg] at hbelow ⊢
    exact hM _ _ _ _ _ (hbelow _ rfl) hp'
  · -- the next number makes the auxiliary name
    next hg =>
    rw [hg] at hbelow ⊢
    exact ⟨n, hM _ _ _ _ _ (hbelow _) hp'⟩

/-- To relate every triple and its context to its obligations by `M` it is enough that `M` holds at
elementary sequences and that every rule passes it on from its premises. The obligation of an
elementary sequence has the context of the sequence, with at most a frame for the sequence added. -/
theorem Triple.derivation_induction {M : Triple → List Frame → List Obligation → Prop}
    (elementary : ∀ q r cs pre context context', Command.wpSeq r cs = .ok pre →
      (context' = context ∨ ∃ f : Frame, f.kind = .sequence ∧ context' = context ++ [f]) →
      M ⟨q, r, cs⟩ context [⟨q.implies pre, context'⟩])
    (choice : ∀ q r before g after context obs,
      Rule.of (before ++ .cond g.guards g.bodies g.range :: after) = .choice before g after →
      (∀ c ∈ before, c.IsElementary) →
      CoversIn M context (Choice.premises g before after q r) obs →
      M ⟨q, r, before ++ .cond g.guards g.bodies g.range :: after⟩ context obs)
    (loop : ∀ q r before l after spec context obs, specs[l.index - 1]? = some spec →
      CoversIn M context (Loop.premises l spec before after q r) obs →
      M ⟨q, r, before ++ .loop l.index l.guards l.bodies l.range :: after⟩ context obs)
    {t : Triple} {context : List Frame} {n n' : Nat}
    (h : t.obligations specs context n = .ok (obs, n')) : M t context obs := by
  -- premises are lighter than the triple
  induction hw : t.weight using Nat.strong_induction_on generalizing t context n obs n' with
  | _ w ih =>
    subst hw
    obtain ⟨q, r, cs⟩ := t
    have happlies := Rule.applies_of cs
    have hcovers := fun hempty helem =>
      Triple.coversIn_of_obligations (M := M) hempty helem h
        fun t' _ _ _ _ hlt ht' => ih t'.weight hlt ht' rfl
    cases hrule : Rule.of cs with
    | empty =>
      rw [hrule] at happlies
      cases happlies
      rw [Triple.obligations] at h
      simp only [hrule] at h
      cases h
      refine elementary q r [] r context _ rfl ?_
      -- only an empty program has no context, and gets a frame of its own
      split
      · next hnil =>
        rw [List.isEmpty_iff.mp hnil]
        exact .inr ⟨_, rfl, rfl⟩
      · exact .inl rfl
    | elementary =>
      rw [Triple.obligations] at h
      simp only [hrule] at h
      obtain ⟨pre, hpre, h⟩ := exists_of_bind_eq_ok h
      cases h
      exact elementary q r cs pre context _ hpre (.inr ⟨_, rfl, rfl⟩)
    | choice before g after =>
      simp only [hrule] at hcovers happlies
      obtain ⟨ps, hps, hps'⟩ := hcovers (fun heq => by cases heq) (fun heq => by cases heq)
      cases hps
      cases happlies with
      | choice hbefore => exact choice q r before g after context obs hrule hbefore hps'
    | loop before l after =>
      simp only [hrule] at hcovers happlies
      obtain ⟨ps, hps, hps'⟩ := hcovers (fun heq => by cases heq) (fun heq => by cases heq)
      cases happlies
      -- without a specification of the loop there are no premises
      simp only [Rule.premises] at hps
      split at hps
      · next hspec =>
        cases hps
        exact loop q r before l after _ context obs hspec hps'
      · cases hps

/-- To relate every triple to its obligations by `M` it is enough that `M` holds at elementary
sequences and that every rule passes it on from its premises. -/
theorem Triple.obligations_induction
    (elementary : ∀ q r cs pre context, Command.wpSeq r cs = .ok pre →
      M ⟨q, r, cs⟩ [⟨q.implies pre, context⟩])
    (choice : ∀ q r before g after obs,
      Rule.of (before ++ .cond g.guards g.bodies g.range :: after) = .choice before g after →
      (∀ c ∈ before, c.IsElementary) →
      Covers M (Choice.premises g before after q r) obs →
      M ⟨q, r, before ++ .cond g.guards g.bodies g.range :: after⟩ obs)
    (loop : ∀ q r before l after spec obs, specs[l.index - 1]? = some spec →
      Covers M (Loop.premises l spec before after q r) obs →
      M ⟨q, r, before ++ .loop l.index l.guards l.bodies l.range :: after⟩ obs)
    {t : Triple} {context : List Frame} {n n' : Nat}
    (h : t.obligations specs context n = .ok (obs, n')) : M t obs := by
  refine Triple.derivation_induction (M := fun t _ os => M t os) ?_ ?_ ?_ h
  · intro q r cs pre _ context hwp _
    exact elementary q r cs pre context hwp
  · intro q r before g after _ obs hrule hbefore hcovers
    exact choice q r before g after obs hrule hbefore hcovers.covers
  · intro q r before l after spec _ obs hspec hcovers
    exact loop q r before l after spec obs hspec hcovers.covers

/-- The obligations of a program are those of one triple. -/
theorem exists_of_generate {spec : Spec} {program : Program}
    (h : generate spec program = .ok obs) :
    ∃ n, Triple.obligations spec.loops
      ⟨spec.precondition, spec.postcondition, Statement.numberSeq 0 program.statements⟩ [] 0 =
        .ok (obs, n) := by
  -- there are as many specifications as loops, or else no obligations
  simp only [generate] at h
  split at h
  · cases h
  · cases ht : Triple.obligations spec.loops
        ⟨spec.precondition, spec.postcondition, Statement.numberSeq 0 program.statements⟩ [] 0 with
    | error e =>
      rw [ht] at h
      cases h
    | ok result =>
      rw [ht] at h
      cases h
      exact ⟨result.2, rfl⟩

/-! ## Obligations that hold -/

/-- What the premises for a choice say, where `S` is said of triples. -/
structure Choice.Follows (S : Triple → Prop) (g : Choice) (before after : List Command)
    (q r : Predicate) : Prop where
  /-- Some guard holds. -/
  entry : S ⟨q, .anyOf g.guards, Command.orSkip before g.range⟩
  /-- Every branch that can be reached establishes what follows. -/
  branch : ∀ guard body, (guard, body) ∈ g.guards.zip g.bodies →
    ∃ reachable, Command.wpSeq guard (Command.orSkip before g.range) = .ok reachable ∧
      S ⟨q.and reachable, r,
        Command.orSkip before g.range ++ body ++ Command.orSkip after g.range⟩

/-- What the premises for a loop say, where `S` is said of triples and `F` of predicates. -/
structure Loop.Follows (F : Predicate → Prop) (S : Triple → Prop) (l : Loop) (spec : LoopSpec)
    (before after : List Command) (q r : Predicate) : Prop where
  /-- The invariant holds on entry. -/
  entry : S ⟨q, spec.invariant, Command.orSkip before l.range⟩
  /-- Every branch keeps the invariant. -/
  preservation : ∀ guard body, (guard, body) ∈ l.guards.zip l.bodies →
    S ⟨spec.invariant.and guard, spec.invariant, body⟩
  /-- The invariant is enough when the loop ends. -/
  exit : S ⟨spec.invariant.and (.not (.anyOf l.guards)), r, Command.orSkip after l.range⟩
  /-- The bound is positive while the loop goes on. -/
  positivity : F ((spec.invariant.and (.anyOf l.guards)).implies
    (.comp .gt spec.bound (.const 0)))
  /-- Every branch decreases the bound, apart from the loops inside it. -/
  decrease : ∀ guard body, (guard, body) ∈ l.guards.zip l.bodies → ∃ n text,
    S ⟨spec.invariant.and guard, .comp .lt spec.bound (.name (auxiliaryName 't' n)),
      .snapshot (auxiliaryName 't' n) spec.bound text :: Command.stripLoops body⟩
  /-- The bodies of inner loops leave the bound alone, apart from the loops inside them. -/
  stability : ∀ m ∈ Command.bodyLoops l.bodies, ∀ body ∈ m.bodies, ∃ n,
    S ⟨.comp .eq (.name (auxiliaryName 'T' n)) spec.bound,
      .comp .eq (.name (auxiliaryName 'T' n)) spec.bound, Command.stripLoops body⟩

/-- What the premises for a choice say, for a weaker property of triples. -/
theorem Choice.Follows.mono {S S' : Triple → Prop} {g : Choice} {before after : List Command}
    {q r : Predicate} (h : g.Follows S before after q r) (hS : ∀ t, S t → S' t) :
    g.Follows S' before after q r := by
  refine ⟨hS _ h.entry, fun guard body hmem => ?_⟩
  obtain ⟨reachable, hwp, hbranch⟩ := h.branch guard body hmem
  exact ⟨reachable, hwp, hS _ hbranch⟩

/-- What the premises for a loop say, for a weaker property of triples. -/
theorem Loop.Follows.mono {S S' : Triple → Prop} {l : Loop} {spec : LoopSpec}
    {before after : List Command} {q r : Predicate} (h : l.Follows F S spec before after q r)
    (hS : ∀ t, S t → S' t) : l.Follows F S' spec before after q r := by
  refine ⟨hS _ h.entry, fun guard body hmem => hS _ (h.preservation guard body hmem),
    hS _ h.exit, h.positivity, fun guard body hmem => ?_, fun m hm body hbody => ?_⟩
  · obtain ⟨n, text, hdecrease⟩ := h.decrease guard body hmem
    exact ⟨n, text, hS _ hdecrease⟩
  · obtain ⟨n, hstability⟩ := h.stability m hm body hbody
    exact ⟨n, hS _ hstability⟩

/-- What a goal says, where `S` is said of triples and `F` of predicates. -/
def Goal.Follows (F : Predicate → Prop) (S : Triple → Prop) : Goal → Prop
  | .fact q => F q
  | .triple (.ok t) => S t
  | .triple (.error _) => False
  | .auxiliary stem t => ∃ n, S (t (auxiliaryName stem n))

/-- If the obligations hold, all premises do. -/
theorem Covers.follows {S : Triple → Prop}
    (h : Covers (fun t os => (∀ o ∈ os, F o.predicate) → S t) ps obs)
    (hobs : ∀ o ∈ obs, F o.predicate) : ∀ p ∈ ps, p.goal.Follows F S := by
  obtain ⟨shares, rfl, hshares⟩ := h
  -- The obligations are split into shares, one for each premise.
  induction hshares with
  | nil => simp
  | @cons p os _ _ hyields _ ih =>
    rw [List.flatten_cons, List.forall_mem_append] at hobs
    rw [List.forall_mem_cons]
    refine ⟨?_, ih hobs.2⟩
    cases hg : p.goal with
    | fact q =>
      rw [hg] at hyields
      obtain ⟨context, rfl⟩ := hyields
      exact hobs.1 _ List.mem_cons_self
    | triple t =>
      rw [hg] at hyields
      cases t with
      | ok t => exact hyields hobs.1
      | error e => exact hyields.elim
    | auxiliary stem t =>
      rw [hg] at hyields
      obtain ⟨n, hn⟩ := hyields
      exact ⟨n, hn hobs.1⟩

/-- Every member of a list has an index. -/
theorem mem_zipIdx_of_mem {α : Type} {as : List α} {a : α} (h : a ∈ as) (k : Nat) :
    ∃ i, (a, i) ∈ as.zipIdx k := by
  obtain ⟨i, hi, rfl⟩ := List.getElem_of_mem h
  exact ⟨k + i, List.mk_add_mem_zipIdx_iff_getElem?.mpr (List.getElem?_eq_getElem hi)⟩

/-- The premises for a choice, one by one. -/
theorem Choice.follows_iff {S : Triple → Prop} {g : Choice} {before after : List Command}
    {q r : Predicate} : (∀ p ∈ g.premises before after q r, p.goal.Follows F S) ↔
      g.Follows S before after q r := by
  simp only [Choice.premises, List.forall_mem_cons, List.forall_mem_map]
  constructor
  · rintro ⟨hentry, hbranch⟩
    refine ⟨hentry, fun guard body hmem => ?_⟩
    obtain ⟨i, hi⟩ := mem_zipIdx_of_mem hmem 1
    have hgoal := hbranch _ hi
    cases hwp : Command.wpSeq guard (Command.orSkip before g.range) with
    | error e =>
      rw [hwp] at hgoal
      exact hgoal.elim
    | ok reachable =>
      rw [hwp] at hgoal
      exact ⟨reachable, rfl, hgoal⟩
  · rintro ⟨hentry, hbranch⟩
    refine ⟨hentry, ?_⟩
    rintro ⟨⟨guard, body⟩, i⟩ hi
    obtain ⟨reachable, hwp, hS⟩ := hbranch guard body (List.fst_mem_of_mem_zipIdx hi)
    simp only [hwp]
    exact hS

/-- The premises for a loop, one by one. -/
theorem Loop.follows_of_premises {S : Triple → Prop} {l : Loop} {spec : LoopSpec}
    {before after : List Command} {q r : Predicate}
    (h : ∀ p ∈ l.premises spec before after q r, p.goal.Follows F S) :
    l.Follows F S spec before after q r := by
  simp only [Loop.premises, List.forall_mem_append, List.forall_mem_cons, List.forall_mem_map,
    List.forall_mem_flatMap] at h
  obtain ⟨⟨⟨⟨⟨hentry, -⟩, hpreservation⟩, hexit, hpositivity, -⟩, hdecrease⟩, hstability⟩ := h
  refine ⟨hentry, fun guard body hmem => ?_, hexit, hpositivity, fun guard body hmem => ?_,
    fun m hm body hmem => ?_⟩
  · obtain ⟨i, hi⟩ := mem_zipIdx_of_mem hmem 1
    exact hpreservation _ hi
  · obtain ⟨i, hi⟩ := mem_zipIdx_of_mem hmem 1
    obtain ⟨n, hn⟩ := hdecrease _ hi
    exact ⟨n, _, hn⟩
  · obtain ⟨i, hi⟩ := mem_zipIdx_of_mem hmem 1
    exact hstability m hm _ hi

/-- The premises for a choice meet a condition that the sequence meets. -/
theorem Choice.Follows.of_composable {S : Triple → Prop} {P : List Command → Prop} {g : Choice}
    {before after : List Command} {q r : Predicate} (hP : Command.Composable P)
    (h : g.Follows (fun t => P t.commands → S t) before after q r)
    (hcs : P (before ++ .cond g.guards g.bodies g.range :: after)) :
    g.Follows S before after q r := by
  refine ⟨h.entry (hP.entry hcs _), fun guard body hmem => ?_⟩
  obtain ⟨reachable, hwp, hbranch⟩ := h.branch guard body hmem
  exact ⟨reachable, hwp, hbranch (hP.branch hcs (List.of_mem_zip hmem).2)⟩

/-- The premises for a loop meet a condition that the sequence meets. -/
theorem Loop.Follows.of_composable {S : Triple → Prop} {P : List Command → Prop} {l : Loop}
    {spec : LoopSpec} {before after : List Command} {q r : Predicate}
    (hP : Command.Composable P)
    (h : l.Follows F (fun t => P t.commands → S t) spec before after q r)
    (hcs : P (before ++ .loop l.index l.guards l.bodies l.range :: after)) :
    l.Follows F S spec before after q r := by
  rw [hP.append, hP.cons] at hcs
  obtain ⟨hbefore, hloop, hafter⟩ := hcs
  have hbodies := hP.loop _ _ _ _ hloop
  refine ⟨h.entry (hP.orSkip hbefore _), fun guard body hmem => ?_, h.exit (hP.orSkip hafter _),
    h.positivity, fun guard body hmem => ?_, fun m hm body hbody => ?_⟩
  · exact h.preservation guard body hmem (hbodies body (List.of_mem_zip hmem).2)
  · obtain ⟨n, text, hdecrease⟩ := h.decrease guard body hmem
    have hstripped := hP.strip body (hbodies body (List.of_mem_zip hmem).2)
    exact ⟨n, text, hdecrease ((hP.cons _ _).mpr ⟨hP.snapshot _ _ _, hstripped⟩)⟩
  · obtain ⟨n, hstability⟩ := h.stability m hm body hbody
    exact ⟨n, hstability (hP.strip body (hP.hereditary.of_bodyLoops hbody l.bodies hm hbodies))⟩

/-- If the obligations of a triple hold, `S` can be said of it as soon as it can be said of
elementary sequences and every rule passes it on from its premises. All sequences can be taken to
meet a condition that the triple meets. -/
theorem Triple.follows_induction {S : Triple → Prop} {P : List Command → Prop}
    (hP : Command.Composable P)
    (elementary : ∀ q r cs pre, Command.wpSeq r cs = .ok pre → F (q.implies pre) → S ⟨q, r, cs⟩)
    (choice : ∀ q r before g after,
      Rule.of (before ++ .cond g.guards g.bodies g.range :: after) = .choice before g after →
      (∀ c ∈ before, c.IsElementary) → P (before ++ .cond g.guards g.bodies g.range :: after) →
      Choice.Follows S g before after q r →
      S ⟨q, r, before ++ .cond g.guards g.bodies g.range :: after⟩)
    (loop : ∀ q r before l after spec, specs[l.index - 1]? = some spec →
      P (before ++ .loop l.index l.guards l.bodies l.range :: after) →
      Loop.Follows F S l spec before after q r →
      S ⟨q, r, before ++ .loop l.index l.guards l.bodies l.range :: after⟩)
    {t : Triple} {context : List Frame} {n n' : Nat}
    (h : t.obligations specs context n = .ok (obs, n')) (hobs : ∀ o ∈ obs, F o.predicate)
    (ht : P t.commands) : S t := by
  -- What the commands satisfy is part of the motive, since the parts of a rule have it from them.
  refine Triple.obligations_induction
    (M := fun t os => (∀ o ∈ os, F o.predicate) → P t.commands → S t) ?_ ?_ ?_ h hobs ht
  · intro q r cs pre context hwp hF _
    exact elementary q r cs pre hwp (hF _ List.mem_cons_self)
  · intro q r before g after obs hrule hbefore hcovers hF hcs
    have hfollows := Choice.follows_iff.mp (hcovers.follows hF)
    exact choice q r before g after hrule hbefore hcs (hfollows.of_composable hP hcs)
  · intro q r before l after spec obs hspec hcovers hF hcs
    have hfollows := Loop.follows_of_premises (hcovers.follows hF)
    exact loop q r before l after spec hspec hcs (hfollows.of_composable hP hcs)

end GuardedCommand
