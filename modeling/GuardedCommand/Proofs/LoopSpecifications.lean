import GuardedCommand.Proofs.VisitedLoops

/-! # Which specification a loop gets

Loops and their specifications are matched by the order of the text. A loop may be met several times
in the derivation of the obligations, and in any order. It meets its own specification each time,
and the frames of an obligation name the loops that it is about.

* `Choice.Part`, `Loop.Part`: the sequences that the premises of a rule are about.
* `Obligation.IsPositivity`: the obligation says that the bound of a loop is positive. Every use of
  the rule for loops gives one such obligation, so these tell which loops are treated.
* `Triple.visits`: there is one for exactly the loops that are visited.
* `Triple.traces`: what the frames of obligations say about loops is true.
* `loops_specified_of_generate`: both for programs, and when all loops are visited.
-/

namespace GuardedCommand

/-! ## The sequences of premises -/

/-- Whatever triples a goal asks for have commands that satisfy `P`. -/
def Goal.Asks (P : List Command → Prop) : Goal → Prop
  | .fact _ => False
  | .triple t => ∀ t', t = .ok t' → P t'.commands
  | .auxiliary _ t => ∀ x, P (t x).commands

/-- The sequences that the premises for a choice are about. -/
inductive Choice.Part (g : Choice) (before after : List Command) : List Command → Prop where
  | entry : Choice.Part g before after (Command.orSkip before g.range)
  | branch {guard body} (h : (guard, body) ∈ g.guards.zip g.bodies) :
    Choice.Part g before after
      (Command.orSkip before g.range ++ body ++ Command.orSkip after g.range)

/-- The sequences that the premises for a loop are about, without those about its bound. -/
inductive Loop.Part (l : Loop) (before after : List Command) : List Command → Prop where
  | entry : Loop.Part l before after (Command.orSkip before l.range)
  | body {guard body} (h : (guard, body) ∈ l.guards.zip l.bodies) : Loop.Part l before after body
  | exit : Loop.Part l before after (Command.orSkip after l.range)

/-- The parts of a sequence with a choice meet a condition that the sequence meets. -/
theorem Choice.Part.of_composable {P : List Command → Prop} (hP : Command.Composable P)
    {g : Choice} {before after cs : List Command}
    (h : P (before ++ .cond g.guards g.bodies g.range :: after)) (hpart : g.Part before after cs) :
    P cs := by
  cases hpart with
  | entry => exact hP.entry h g.range
  | branch hmem => exact hP.branch h (List.of_mem_zip hmem).2

/-- The parts of a sequence with a loop meet a condition that the sequence meets. -/
theorem Loop.Part.of_composable {P : List Command → Prop} (hP : Command.Composable P)
    {l : Loop} {before after cs : List Command}
    (h : P (before ++ .loop l.index l.guards l.bodies l.range :: after))
    (hpart : l.Part before after cs) : P cs := by
  rw [hP.append, hP.cons] at h
  obtain ⟨hbefore, hloop, hafter⟩ := h
  cases hpart with
  | entry => exact hP.orSkip hbefore l.range
  | body hmem => exact hP.loop _ _ _ _ hloop cs (List.of_mem_zip hmem).2
  | exit => exact hP.orSkip hafter l.range

variable {M : Triple → List Frame → List Obligation → Prop} {context : List Frame}
  {before after cs : List Command} {g : Choice} {l : Loop} {spec : LoopSpec} {q r : Predicate}
  {p : Premise} {os : List Obligation} {k : Nat}

/-- A premise that asks for a triple has the share of that triple. -/
theorem Premise.YieldsIn.exists_triple {P : List Command → Prop} (h : p.YieldsIn M context os)
    (hasks : p.goal.Asks P) : ∃ t, P t.commands ∧ M t (context ++ [p.frame]) os := by
  unfold Premise.YieldsIn at h
  split at h
  · next hg =>
    rw [hg] at hasks
    exact hasks.elim
  · next t hg =>
    rw [hg] at hasks
    exact ⟨t, hasks t rfl, h⟩
  · exact h.elim
  · next hg =>
    rw [hg] at hasks
    obtain ⟨n, h⟩ := h
    exact ⟨_, hasks _, h⟩

/-- What the premises for a choice ask for. -/
theorem Choice.asks_of_mem_premises (hp : p ∈ g.premises before after q r) :
    p.frame.kind ≠ .loop ∧ p.goal.Asks (g.Part before after) := by
  simp only [Choice.premises, List.mem_cons, List.mem_map] at hp
  rcases hp with rfl | ⟨⟨⟨guard, body⟩, i⟩, hi, rfl⟩
  · refine ⟨by simp, ?_⟩
    rintro t ⟨⟩
    exact .entry
  · refine ⟨by simp, fun t ht => ?_⟩
    obtain ⟨reachable, -, ht⟩ := exists_of_bind_eq_ok ht
    cases ht
    exact .branch (List.fst_mem_of_mem_zipIdx hi)

/-- The premises for a choice ask for all of its parts. -/
theorem Choice.exists_premise_of_part (h : g.Part before after cs) :
    ∃ p ∈ g.premises before after q r, p.frame.kind ≠ .loop ∧ p.goal.Asks (· = cs) := by
  cases h with
  | entry =>
    refine ⟨_, List.mem_cons_self, by simp, ?_⟩
    rintro t ⟨⟩
    rfl
  | @branch guard body h =>
    obtain ⟨i, hi⟩ := mem_zipIdx_of_mem h 1
    refine ⟨_, List.mem_cons_of_mem _ (List.mem_map_of_mem hi), by simp, fun t ht => ?_⟩
    obtain ⟨reachable, -, ht⟩ := exists_of_bind_eq_ok ht
    cases ht
    rfl

/-- The frame is that of a premise with the given number for the loop `k`. -/
def Frame.IsPremise (f : Frame) (step k : Nat) : Prop :=
  f.kind = .loop ∧ f.step = some step ∧ f.loop = some k

/-- What the premises for a loop ask for, apart from a positive bound. A frame of step 6 names a
loop inside the loop. -/
theorem Loop.asks_of_mem_premises (hp : p ∈ l.premises spec before after q r) :
    p = l.positivity spec ∨
      p.frame.loop = some l.index ∧ p.frame.step ≠ some 4 ∧
      (p.frame.step = some 6 →
        ∃ m ∈ Command.bodyLoops l.bodies, p.frame.nestedLoop = some m.index) ∧
      p.goal.Asks fun cs => l.Part before after cs ∨ Command.nestedLoops cs = [] := by
  -- One case for each step of the rule; only step 4 asks for a fact.
  simp only [Loop.premises, List.mem_append, List.mem_map, List.mem_flatMap, List.mem_cons,
    List.not_mem_nil, or_false] at hp
  rcases hp with (((rfl | ⟨⟨⟨guard, body⟩, i⟩, hi, rfl⟩) | rfl | rfl) |
    ⟨⟨⟨guard, body⟩, i⟩, hi, rfl⟩) | ⟨m, hm, ⟨body, j⟩, hj, rfl⟩
  · refine .inr ⟨rfl, by simp [Loop.entry, Loop.frame], by simp [Loop.entry, Loop.frame], ?_⟩
    rintro t ⟨⟩
    exact .inl .entry
  · refine .inr ⟨rfl, by simp [Loop.preservation, Loop.frame],
      by simp [Loop.preservation, Loop.frame], ?_⟩
    rintro t ⟨⟩
    exact .inl (.body (List.fst_mem_of_mem_zipIdx hi))
  · refine .inr ⟨rfl, by simp [Loop.exit, Loop.frame], by simp [Loop.exit, Loop.frame], ?_⟩
    rintro t ⟨⟩
    exact .inl .exit
  · exact .inl rfl
  · refine .inr ⟨rfl, by simp [Loop.decrease, Loop.frame], by simp [Loop.decrease, Loop.frame],
      fun x => .inr ?_⟩
    simp [Command.nestedLoop, Command.nestedLoops_stripLoops]
  · refine .inr ⟨rfl, by simp [Loop.stability, Loop.frame], fun _ => ⟨m, hm, rfl⟩,
      fun x => .inr (Command.nestedLoops_stripLoops body)⟩

/-- The premises for a loop ask for all of its parts. -/
theorem Loop.exists_premise_of_part (spec : LoopSpec) (h : l.Part before after cs) :
    ∃ p ∈ l.premises spec before after q r, p.frame.step ≠ some 4 ∧ p.goal.Asks (· = cs) := by
  simp only [Loop.premises, List.mem_append, List.mem_map, List.mem_flatMap, List.mem_cons,
    List.not_mem_nil, or_false]
  cases h with
  | entry =>
    refine ⟨l.entry spec before q, .inl (.inl (.inl (.inl rfl))), ?_, ?_⟩
    · simp [Loop.entry, Loop.frame]
    · rintro t ⟨⟩
      rfl
  | @body guard _ h =>
    obtain ⟨i, hi⟩ := mem_zipIdx_of_mem h 1
    refine ⟨l.preservation spec ((guard, cs), i), .inl (.inl (.inl (.inr ⟨_, hi, rfl⟩))), ?_, ?_⟩
    · simp [Loop.preservation, Loop.frame]
    · rintro t ⟨⟩
      rfl
  | exit =>
    refine ⟨l.exit spec after r, .inl (.inl (.inr (.inl rfl))), ?_, ?_⟩
    · simp [Loop.exit, Loop.frame]
    · rintro t ⟨⟩
      rfl

/-- The bound of a loop is a premise. -/
theorem Loop.positivity_mem_premises :
    l.positivity spec ∈ l.premises spec before after q r := by
  simp only [Loop.premises, List.mem_append, List.mem_cons, true_or, or_true]

/-! ## Visited loops of the parts -/

/-- There is no loop next to a choice that the rules treat. -/
theorem Rule.not_loop_of_choice (h : Rule.of cs = .choice before g after) :
    ∀ c ∈ cs, ∀ i guards bodies r, c ≠ .loop i guards bodies r := by
  unfold Rule.of at h
  split at h
  · cases h
  · split at h
    · cases h
    · next hnone => exact Command.not_loop_of_splitLastLoop_none hnone

/-- The loops visited in a sequence with a choice are those visited in its parts. -/
theorem Choice.mem_visitedSeq_iff (hbefore : ∀ c ∈ before, c.IsElementary)
    (hafter : ∀ c ∈ after, ∀ i guards bodies r, c ≠ .loop i guards bodies r) :
    k ∈ Command.visitedSeq true (before ++ .cond g.guards g.bodies g.range :: after) ↔
      ∃ cs, g.Part before after cs ∧ k ∈ Command.visitedSeq true cs := by
  have hentry : Command.visitedSeq true (Command.orSkip before g.range) = [] := by
    rw [Command.visitedSeq_orSkip, Command.visitedSeq_eq_nil_of_isElementary hbefore]
  -- what stands before the choice is passed, what follows is visited if the branch is passed
  have hbranch : ∀ body, Command.visitedSeq true
      (Command.orSkip before g.range ++ body ++ Command.orSkip after g.range) =
        Command.visitedSeq true body ++
          Command.visitedSeq (Command.passesSeq true body) after := by
    intro body
    rw [Command.visitedSeq_append, Command.visitedSeq_append, hentry, List.nil_append,
      Command.passesSeq_append, Command.passesSeq_orSkip,
      Command.passesSeq_of_isElementary hbefore, Command.visitedSeq_orSkip]
  rw [Command.visitedSeq_append, Command.visitedSeq_eq_nil_of_isElementary hbefore,
    Command.passesSeq_of_isElementary hbefore, List.nil_append, Command.visitedSeq,
    Command.visited, Command.passes, if_pos rfl, Bool.true_and, List.mem_append,
    Command.mem_visitedBranches]
  constructor
  · rintro (⟨⟨guard, body⟩, hmem, hk⟩ | hk)
    · refine ⟨_, .branch hmem, ?_⟩
      rw [hbranch]
      exact List.mem_append_left _ hk
    · -- what follows the choice is visited behind a branch that comes to an end
      cases hpasses : Command.passesBranches g.guards g.bodies with
      | false =>
        rw [hpasses, Command.visitedSeq_false_eq_nil hafter] at hk
        cases hk
      | true =>
        obtain ⟨⟨guard, body⟩, hmem, hbody⟩ := Command.passesBranches_iff.mp hpasses
        refine ⟨_, .branch hmem, ?_⟩
        rw [hbranch, hbody, ← hpasses]
        exact List.mem_append_right _ hk
  · rintro ⟨cs, hpart, hk⟩
    cases hpart with
    | entry =>
      rw [hentry] at hk
      cases hk
    | @branch guard body hmem =>
      rw [hbranch, List.mem_append] at hk
      rcases hk with hk | hk
      · exact .inl ⟨(guard, body), hmem, hk⟩
      · -- without a loop of its own, the rest has visited loops only behind a passed branch
        cases hbody : Command.passesSeq true body with
        | false =>
          rw [hbody, Command.visitedSeq_false_eq_nil hafter] at hk
          cases hk
        | true =>
          have hpasses := Command.passesBranches_iff.mpr ⟨(guard, body), hmem, hbody⟩
          rw [hbody] at hk
          rw [hpasses]
          exact .inr hk

/-- The loops visited in a sequence with a loop are this loop and those visited in its parts. -/
theorem Loop.mem_visitedSeq_iff :
    k ∈ Command.visitedSeq true (before ++ .loop l.index l.guards l.bodies l.range :: after) ↔
      k = l.index ∨ ∃ cs, l.Part before after cs ∧ k ∈ Command.visitedSeq true cs := by
  rw [Command.visitedSeq_append, Command.visitedSeq, Command.visited, Command.passes,
    List.mem_append, List.mem_append, List.mem_cons, Command.mem_visitedBranches]
  constructor
  · rintro (hk | (rfl | ⟨⟨guard, body⟩, hmem, hk⟩) | hk)
    · refine .inr ⟨_, .entry, ?_⟩
      rwa [Command.visitedSeq_orSkip]
    · exact .inl rfl
    · exact .inr ⟨body, .body hmem, hk⟩
    · refine .inr ⟨_, .exit, ?_⟩
      rwa [Command.visitedSeq_orSkip]
  · rintro (rfl | ⟨cs, hpart, hk⟩)
    · exact .inr (.inl (.inl rfl))
    · cases hpart with
      | entry =>
        rw [Command.visitedSeq_orSkip] at hk
        exact .inl hk
      | body hmem => exact .inr (.inl (.inr ⟨_, hmem, hk⟩))
      | exit =>
        rw [Command.visitedSeq_orSkip] at hk
        exact .inr (.inr hk)

/-! ## Obligations of a triple -/

/-- The obligation says that the bound of loop `k` is positive, by the last frame of its context. -/
def Obligation.IsPositivity (o : Obligation) (k : Nat) : Prop :=
  ∃ f, o.context.getLast? = some f ∧ f.IsPremise 4 k

/-- The last step of a context is not that of a positive bound. -/
def OpenContext (context : List Frame) : Prop :=
  ∀ f, context.getLast? = some f → ∀ k, ¬ f.IsPremise 4 k

/-- A context stays open under every step but that of a positive bound. -/
theorem openContext_append {f : Frame} (h : f.kind ≠ .loop ∨ f.step ≠ some 4) :
    OpenContext (context ++ [f]) := by
  intro f' hf' k hpremise
  rw [List.getLast?_concat] at hf'
  cases hf'
  rcases h with h | h
  · exact h hpremise.1
  · exact h hpremise.2.1

/-- A context to which at most a frame for a sequence is added remains open. -/
theorem OpenContext.of_elementary {context' : List Frame} (h : OpenContext context)
    (hcontext : context' = context ∨ ∃ f : Frame, f.kind = .sequence ∧ context' = context ++ [f]) :
    OpenContext context' := by
  rcases hcontext with rfl | ⟨f, hkind, rfl⟩
  · exact h
  · -- a frame for a sequence is not one for a loop
    refine openContext_append (.inl ?_)
    rw [hkind]
    intro heq
    cases heq

/-- The frame of a positive bound is the last one of its obligation. -/
theorem Loop.isPositivity_iff {predicate : Predicate} :
    Obligation.IsPositivity ⟨predicate, context ++ [(l.positivity spec).frame]⟩ k ↔
      k = l.index := by
  constructor
  · rintro ⟨f, hf, -, -, hloop⟩
    rw [List.getLast?_concat] at hf
    cases hf
    exact (Option.some.inj hloop).symm
  · rintro rfl
    exact ⟨_, List.getLast?_concat, rfl, rfl, rfl⟩

variable {specs : List LoopSpec} {obs : List Obligation} {loops : List Loop}

/-- The obligations of a triple in an open context have one of step 4 for exactly the loops visited
in it. -/
def Triple.Visits (t : Triple) (context : List Frame) (obs : List Obligation) : Prop :=
  OpenContext context →
    ∀ k, (∃ o ∈ obs, o.IsPositivity k) ↔ k ∈ Command.visitedSeq true t.commands

/-- The obligations of a choice visit the loops of its premises. -/
theorem Choice.visits_of_coversIn (hbefore : ∀ c ∈ before, c.IsElementary)
    (hafter : ∀ c ∈ after, ∀ i guards bodies r, c ≠ .loop i guards bodies r)
    (h : CoversIn Triple.Visits context (g.premises before after q r) obs) :
    Triple.Visits ⟨q, r, before ++ .cond g.guards g.bodies g.range :: after⟩ context obs := by
  intro _ k
  rw [Choice.mem_visitedSeq_iff hbefore hafter]
  constructor
  · -- the obligation is one of a premise, and so of a part
    rintro ⟨o, ho, hpos⟩
    obtain ⟨p, hp, os, hyields, hos⟩ := h.exists_of_mem ho
    obtain ⟨hkind, hasks⟩ := Choice.asks_of_mem_premises hp
    obtain ⟨t, hpart, ht⟩ := hyields.exists_triple hasks
    exact ⟨t.commands, hpart, (ht (openContext_append (.inl hkind)) k).mp ⟨o, hos, hpos⟩⟩
  · rintro ⟨cs, hpart, hk⟩
    obtain ⟨p, hp, hkind, hasks⟩ := Choice.exists_premise_of_part (q := q) (r := r) hpart
    obtain ⟨os, hyields, hsubset⟩ := h.exists_share hp
    obtain ⟨t, rfl, ht⟩ := hyields.exists_triple hasks
    obtain ⟨o, ho, hpos⟩ := (ht (openContext_append (.inl hkind)) k).mpr hk
    exact ⟨o, hsubset ho, hpos⟩

/-- The obligations of a loop visit the loop and those of its premises. -/
theorem Loop.visits_of_coversIn
    (h : CoversIn Triple.Visits context (l.premises spec before after q r) obs) :
    Triple.Visits ⟨q, r, before ++ .loop l.index l.guards l.bodies l.range :: after⟩
      context obs := by
  intro _ k
  rw [Loop.mem_visitedSeq_iff]
  constructor
  · rintro ⟨o, ho, hpos⟩
    obtain ⟨p, hp, os, hyields, hos⟩ := h.exists_of_mem ho
    rcases Loop.asks_of_mem_premises hp with rfl | ⟨-, hstep, -, hasks⟩
    · cases hyields
      rw [List.mem_singleton] at hos
      subst hos
      exact .inl (Loop.isPositivity_iff.mp hpos)
    · obtain ⟨t, hpart, ht⟩ := hyields.exists_triple hasks
      have hk := (ht (openContext_append (.inr hstep)) k).mp ⟨o, hos, hpos⟩
      rcases hpart with hpart | hnil
      · exact .inr ⟨t.commands, hpart, hk⟩
      · -- what is asked about the bound has no loops
        obtain ⟨m, hm, -⟩ := Command.exists_of_mem_visitedSeq t.commands true hk
        rw [hnil] at hm
        cases hm
  · rintro (rfl | ⟨cs, hpart, hk⟩)
    · obtain ⟨os, hyields, hsubset⟩ := h.exists_share Loop.positivity_mem_premises
      cases hyields
      exact ⟨_, hsubset List.mem_cons_self, Loop.isPositivity_iff.mpr rfl⟩
    · obtain ⟨p, hp, hstep, hasks⟩ := Loop.exists_premise_of_part (q := q) (r := r) spec hpart
      obtain ⟨os, hyields, hsubset⟩ := h.exists_share hp
      obtain ⟨t, rfl, ht⟩ := hyields.exists_triple hasks
      obtain ⟨o, ho, hpos⟩ := (ht (openContext_append (.inr hstep)) k).mpr hk
      exact ⟨o, hsubset ho, hpos⟩

/-- A triple has an obligation of step 4 for exactly the loops visited in it. -/
theorem Triple.visits {t : Triple} {n n' : Nat}
    (h : t.obligations specs context n = .ok (obs, n')) : t.Visits context obs := by
  refine Triple.derivation_induction ?_ ?_ ?_ h
  · intro q r cs pre context context' hwp hcontext hopen k
    have hopen' := hopen.of_elementary hcontext
    rw [Command.visitedSeq_eq_nil_of_isElementary (Command.isElementary_of_wpSeq hwp)]
    constructor
    · rintro ⟨o, ho, f, hf, hpremise⟩
      rw [List.mem_singleton] at ho
      subst ho
      exact absurd hpremise (hopen' f hf k)
    · intro hk
      cases hk
  · intro q r before g after context obs hrule hbefore hcovers
    refine Choice.visits_of_coversIn hbefore (fun c hc => ?_) hcovers
    exact Rule.not_loop_of_choice hrule c (List.mem_append_right _ (List.mem_cons_of_mem _ hc))
  · intro q r before l after spec context obs _ hcovers
    exact Loop.visits_of_coversIn hcovers

/-- A frame of step 6 for a loop names a loop inside that one; both are among `loops`. -/
def Frame.NamesInner (loops : List Loop) (f : Frame) : Prop :=
  ∀ k, f.IsPremise 6 k →
    ∃ l ∈ loops, l.index = k ∧ ∃ m ∈ Command.bodyLoops l.bodies, f.nestedLoop = some m.index

/-- What the frames of an obligation say about loops is true: an obligation of step 4 is about the
specification and the guards of the loop it names, and frames of step 6 name inner loops. -/
structure Obligation.Traced (specs : List LoopSpec) (loops : List Loop) (o : Obligation) :
    Prop where
  positivity : ∀ k, o.IsPositivity k → ∃ l ∈ loops, l.index = k ∧
    ∃ spec, specs[k - 1]? = some spec ∧ o.predicate =
      (spec.invariant.and (.anyOf l.guards)).implies (.comp .gt spec.bound (.const 0))
  stability : ∀ f ∈ o.context, f.NamesInner loops

/-- The obligations of a triple with loops among `loops` are traced, if its context is. -/
def Triple.Traces (specs : List LoopSpec) (loops : List Loop) (t : Triple) (context : List Frame)
    (obs : List Obligation) : Prop :=
  (∀ l ∈ Command.nestedLoops t.commands, l ∈ loops) → OpenContext context →
    (∀ f ∈ context, f.NamesInner loops) → ∀ o ∈ obs, o.Traced specs loops

/-- The obligations of a choice are traced, if those of its premises are. -/
theorem Choice.traces_of_coversIn
    (h : CoversIn (Triple.Traces specs loops) context (g.premises before after q r) obs) :
    Triple.Traces specs loops ⟨q, r, before ++ .cond g.guards g.bodies g.range :: after⟩
      context obs := by
  intro hloops _ hcontext o ho
  obtain ⟨p, hp, os, hyields, hos⟩ := h.exists_of_mem ho
  obtain ⟨hkind, hasks⟩ := Choice.asks_of_mem_premises hp
  obtain ⟨t, hpart, ht⟩ := hyields.exists_triple hasks
  have hinner := hpart.of_composable (Command.composable_forall_nestedLoops (· ∈ loops)) hloops
  refine ht hinner (openContext_append (.inl hkind)) ?_ o hos
  rw [List.forall_mem_append, List.forall_mem_singleton]
  refine ⟨hcontext, fun k hk => ?_⟩
  exact absurd hk.1 hkind

/-- The obligations of a loop are traced, if those of its premises are. -/
theorem Loop.traces_of_coversIn (hspec : specs[l.index - 1]? = some spec)
    (h : CoversIn (Triple.Traces specs loops) context (l.premises spec before after q r) obs) :
    Triple.Traces specs loops ⟨q, r, before ++ .loop l.index l.guards l.bodies l.range :: after⟩
      context obs := by
  intro hloops _ hcontext o ho
  have hl : l ∈ loops := by
    refine hloops l ?_
    rw [Command.nestedLoops_append, Command.nestedLoops_cons, Command.nestedLoop_loop]
    exact List.mem_append_right _ List.mem_cons_self
  obtain ⟨p, hp, os, hyields, hos⟩ := h.exists_of_mem ho
  rcases Loop.asks_of_mem_premises hp with rfl | ⟨hindex, hstep, hsix, hasks⟩
  · -- the one obligation that the rule states itself
    cases hyields
    rw [List.mem_singleton] at hos
    subst hos
    constructor
    · intro k hpos
      obtain rfl := Loop.isPositivity_iff.mp hpos
      exact ⟨l, hl, rfl, spec, hspec, rfl⟩
    · rw [List.forall_mem_append, List.forall_mem_singleton]
      refine ⟨hcontext, fun k hk => ?_⟩
      cases hk.2.1
  · obtain ⟨t, hpart, ht⟩ := hyields.exists_triple hasks
    have hinner : ∀ m ∈ Command.nestedLoops t.commands, m ∈ loops := by
      rcases hpart with hpart | hnil
      · exact hpart.of_composable (Command.composable_forall_nestedLoops (· ∈ loops)) hloops
      · rw [hnil]
        exact List.forall_mem_nil _
    refine ht hinner (openContext_append (.inr hstep)) ?_ o hos
    rw [List.forall_mem_append, List.forall_mem_singleton]
    refine ⟨hcontext, fun k hk => ?_⟩
    -- the frame names this loop, and of step 6 also the inner one
    have hk' : some l.index = some k := hindex.symm.trans hk.2.2
    exact ⟨l, hl, Option.some.inj hk', hsix hk.2.1⟩

/-- What the frames of the obligations of a triple say about loops is true. -/
theorem Triple.traces {t : Triple} {n n' : Nat}
    (h : t.obligations specs context n = .ok (obs, n')) (loops : List Loop) :
    t.Traces specs loops context obs := by
  refine Triple.derivation_induction ?_ ?_ ?_ h
  · intro q r cs pre context context' _ hcontext _ hopen hframes o ho
    have hopen' := hopen.of_elementary hcontext
    rw [List.mem_singleton] at ho
    subst ho
    constructor
    · rintro k ⟨f, hf, hpremise⟩
      exact absurd hpremise (hopen' f hf k)
    · rcases hcontext with rfl | ⟨f, hkind, rfl⟩
      · exact hframes
      · rw [List.forall_mem_append, List.forall_mem_singleton]
        refine ⟨hframes, fun k hk => ?_⟩
        have hkind' := hkind.symm.trans hk.1
        cases hkind'
  · intro q r before g after context obs _ _ hcovers
    exact Choice.traces_of_coversIn hcovers
  · intro q r before l after spec context obs hspec hcovers
    exact Loop.traces_of_coversIn hspec hcovers

/-! ## Obligations of a program -/

/-- The empty context is open. -/
theorem openContext_nil : OpenContext [] := by
  intro f hf
  cases hf

/-- A program has an obligation of step 4 for exactly the loops visited in it. -/
theorem exists_isPositivity_iff {spec : Spec} {program : Program} {obligations : List Obligation}
    (h : generate spec program = .ok obligations) (k : Nat) :
    (∃ o ∈ obligations, o.IsPositivity k) ↔ k ∈ program.visitedLoops := by
  obtain ⟨n, hobs⟩ := exists_of_generate h
  exact Triple.visits hobs openContext_nil k

/-- Loops are matched with their specifications by the order of the text: an obligation that a bound
is positive is about the guards and the specification of the loop it names. There is one for exactly
the loops that are visited, which are all loops if no choice is without branches. Where an
obligation is about the body of an inner loop, that loop lies inside the other one. -/
theorem loops_specified_of_generate {spec : Spec} {program : Program}
    {obligations : List Obligation} (h : generate spec program = .ok obligations) :
    (∀ o ∈ obligations, ∀ k, o.IsPositivity k → ∃ guards bodies range loopSpec,
      program.loop? k = some (.loop guards bodies range) ∧ spec.loops[k - 1]? = some loopSpec ∧
      o.predicate = (loopSpec.invariant.and (.anyOf guards)).implies
        (.comp .gt loopSpec.bound (.const 0))) ∧
    (∀ k, (∃ o ∈ obligations, o.IsPositivity k) ↔ k ∈ program.visitedLoops) ∧
    (program.Paired 1 → ∀ k, 1 ≤ k → k ≤ program.countLoops →
      ∃ o ∈ obligations, o.IsPositivity k) ∧
    ∀ o ∈ obligations, ∀ f ∈ o.context, ∀ k, f.IsPremise 6 k →
      ∃ m, f.nestedLoop = some m ∧ program.LiesInside m k := by
  obtain ⟨n, hobs⟩ := exists_of_generate h
  have htraced := Triple.traces hobs program.numberedLoops (fun _ hl => hl) openContext_nil
    (List.forall_mem_nil _)
  refine ⟨?_, exists_isPositivity_iff h, ?_, ?_⟩
  · intro o ho k hpos
    obtain ⟨l, hl, rfl, loopSpec, hspec, hpredicate⟩ := (htraced o ho).positivity k hpos
    exact ⟨_, _, _, loopSpec, (Program.loop?_index hl).1, hspec, hpredicate⟩
  · intro hpaired k hpos hle
    exact (exists_isPositivity_iff h k).mpr (Program.mem_visitedLoops hpaired hpos hle)
  · intro o ho f hf k hk
    obtain ⟨l, hl, rfl, m, hm, hnested⟩ := (htraced o ho).stability f hf k hk
    exact ⟨m.index, hnested, Program.liesInside_of_mem_bodyLoops hl hm⟩

/-! ### Loops that are met twice, and a loop that is never met -/

/-- Two choices, and the same loop in the first of them and at the end:
`if x ≥ 0 → skip | x < 0 → do x < 0 → x := x + 1 od fi;`
`if true → do x > 0 → do y > 0 → y := y - 1 od; x := x - 1 od fi;`
`do x < 0 → x := x + 1 od`.
The loops of the second choice are met behind each branch of the first. -/
def roundabout : Program :=
  let x : IntExpr := .name "x"
  let y : IntExpr := .name "y"
  let raise : Statement :=
    .loop [.comp .lt x (.const 0)] [[.assign ⟨[.name "x"], [.int (.plus x (.const 1))], .zero⟩]]
      .zero
  { statements := [
      .cond [.comp .ge x (.const 0), .comp .lt x (.const 0)] [[.skip .zero], [raise]] .zero,
      .cond [.const true]
        [[.loop [.comp .gt x (.const 0)]
          [[.loop [.comp .gt y (.const 0)]
              [[.assign ⟨[.name "y"], [.int (.minus y (.const 1))], .zero⟩]] .zero,
            .assign ⟨[.name "x"], [.int (.minus x (.const 1))], .zero⟩]] .zero]] .zero,
      raise] }

/-- The two equal loops of `roundabout` are given different bounds. -/
def roundaboutSpec : Spec where
  precondition := .const true
  postcondition := .const true
  loops := [⟨.const true, .minus (.const 0) (.name "x")⟩, ⟨.const true, .name "x"⟩,
    ⟨.const true, .name "y"⟩, ⟨.const true, .minus (.const 1) (.name "x")⟩]

/-- Each of the four loops of `roundabout` has its obligation, and the equal ones keep their own
bounds. -/
theorem roundabout_specified :
    roundabout.Paired 1 ∧ roundabout.countLoops = 4 ∧
      ∃ obligations, generate roundaboutSpec roundabout = .ok obligations ∧
        (∀ k, 1 ≤ k → k ≤ 4 → ∃ o ∈ obligations, o.IsPositivity k) ∧
        (∀ o ∈ obligations, o.IsPositivity 1 → o.predicate =
          ((Predicate.const true).and (.anyOf [.comp .lt (.name "x") (.const 0)])).implies
            (.comp .gt (.minus (.const 0) (.name "x")) (.const 0))) ∧
        ∀ o ∈ obligations, o.IsPositivity 4 → o.predicate =
          ((Predicate.const true).and (.anyOf [.comp .lt (.name "x") (.const 0)])).implies
            (.comp .gt (.minus (.const 1) (.name "x")) (.const 0)) := by
  have hpaired : roundabout.Paired 1 := by
    simp [Program.Paired, roundabout, Statement.PairedSeq, Statement.Paired,
      Statement.PairedBodies]
  have hsome : (generate roundaboutSpec roundabout).toOption.isSome = true := by decide +kernel
  obtain ⟨obligations, hgenerate⟩ : ∃ obligations,
      generate roundaboutSpec roundabout = .ok obligations := by
    cases hgenerate : generate roundaboutSpec roundabout with
    | error e =>
      rw [hgenerate] at hsome
      cases hsome
    | ok obligations => exact ⟨obligations, rfl⟩
  obtain ⟨hpositivity, -, hall, -⟩ := loops_specified_of_generate hgenerate
  refine ⟨hpaired, by decide, obligations, hgenerate, hall hpaired, ?_, ?_⟩
  · intro o ho hpos
    obtain ⟨guards, bodies, range, loopSpec, hloop, hspec, hpredicate⟩ := hpositivity o ho 1 hpos
    cases hloop
    cases hspec
    exact hpredicate
  · intro o ho hpos
    obtain ⟨guards, bodies, range, loopSpec, hloop, hspec, hpredicate⟩ := hpositivity o ho 4 hpos
    cases hloop
    cases hspec
    exact hpredicate

/-- A choice without branches before one with a loop: `if fi; if true → do false → skip od fi`. -/
def cutOff : Program :=
  { statements := [
      .cond [] [] .zero,
      .cond [.const true] [[.loop [.const false] [[.skip .zero]] .zero]] .zero] }

/-- The loop of `cutOff` has a bound that is not positive. -/
def cutOffSpec : Spec where
  precondition := .const true
  postcondition := .const true
  loops := [⟨.const true, .const 0⟩]

/-- Nothing is asked about the bound of the only loop of `cutOff`, although every choice and every
loop has as many guards as bodies. -/
theorem cutOff_unspecified :
    cutOff.Paired 0 ∧ cutOff.countLoops = 1 ∧
      ∃ obligations, generate cutOffSpec cutOff = .ok obligations ∧
        ¬ ∃ o ∈ obligations, o.IsPositivity 1 := by
  have hpaired : cutOff.Paired 0 := by
    simp [Program.Paired, cutOff, Statement.PairedSeq, Statement.Paired, Statement.PairedBodies]
  have hgenerate : generate cutOffSpec cutOff = .ok [⟨(Predicate.const true).implies (.const false),
      [{ kind := .choice, step := some 1, range := .zero },
        { kind := .sequence, range := .zero }]⟩] := by
    decide +kernel
  have hvisited : cutOff.visitedLoops = [] := by decide
  refine ⟨hpaired, by decide, _, hgenerate, fun hpos => ?_⟩
  have hmem := (exists_isPositivity_iff hgenerate 1).mp hpos
  rw [hvisited] at hmem
  cases hmem

end GuardedCommand
