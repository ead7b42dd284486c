import GuardedCommand.Proofs.LoopSpecifications
import GuardedCommand.Proofs.Subgoals

/-! # What the formulas of a derivation are built from

Obligations are built from the formulas of a program and of its specification, from weakest
preconditions of these, and from comparisons of a bound with an auxiliary name. If a property of
formulas passes through all of this, every obligation has it as soon as the program and its
specification have it. The property may depend on an auxiliary name. The name under which step 5
records a bound is gone from the weakest preconditions, whereas the name of step 6 stays.

* `Statement.Every`: all assignments and all guards of a statement have a property.
* `Vocabulary`, `Vocabulary.Closed`: properties of formulas that pass through a derivation.
* `Triple.Within`, `Subgoal.Scoped`: the invariant of the derivation, with the auxiliary name that
  a subgoal is about.
* `Subgoal.Scoped.of_child`, `Subgoal.At.scoped`: what one step and many steps preserve.
* `Subgoal.At.scoped_cases`: the step 6 that a subgoal has its auxiliary name from.
* `Subgoal.Scoped.predicate_of_origin`: what follows for an obligation.
-/

namespace GuardedCommand

/-! ## Assignments and guards of a program -/

namespace Statement

section Every

variable (A : Assign → Prop) (G : Predicate → Prop)

mutual

/-- All assignments of a statement satisfy `A` and all its guards satisfy `G`. -/
def Every : Statement → Prop
  | .abort _ | .skip _ => True
  | .assign a => A a
  | .cond guards bodies _ | .loop guards bodies _ => (∀ g ∈ guards, G g) ∧ EveryBodies bodies

/-- All assignments and guards of a sequence satisfy `A` and `G`. -/
def EverySeq : List Statement → Prop
  | [] => True
  | a :: ss => a.Every ∧ EverySeq ss

/-- All assignments and guards of bodies satisfy `A` and `G`. -/
def EveryBodies : List (List Statement) → Prop
  | [] => True
  | b :: bs => EverySeq b ∧ EveryBodies bs

end

end Every

variable {A A' : Assign → Prop} {G G' : Predicate → Prop}

/-- The empty sequence has no assignments and no guards. -/
@[simp] theorem everySeq_nil : EverySeq A G [] := by simp only [EverySeq]

/-- The assignments and guards of a sequence are those of its first statement and of the others. -/
@[simp] theorem everySeq_cons (a : Statement) (ss : List Statement) :
    EverySeq A G (a :: ss) ↔ a.Every A G ∧ EverySeq A G ss := by simp only [EverySeq]

/-- The assignments and guards of two sequences are those of each. -/
@[simp] theorem everySeq_append (ss ts : List Statement) :
    EverySeq A G (ss ++ ts) ↔ EverySeq A G ss ∧ EverySeq A G ts := by
  induction ss with
  | nil => simp
  | cons a ss ih => simp [ih, and_assoc]

/-- The assignments and guards of bodies are those of each body. -/
theorem everyBodies_iff {bs : List (List Statement)} :
    EveryBodies A G bs ↔ ∀ b ∈ bs, EverySeq A G b := by
  induction bs with
  | nil => simp [EveryBodies]
  | cons b bs ih => simp [EveryBodies, ih]

end Statement

namespace Command

variable {A : Assign → Prop} {G : Predicate → Prop} {cs : List Command}

/-- All assignments of a sequence of commands satisfy `A` and all guards satisfy `G`. -/
def Every (A : Assign → Prop) (G : Predicate → Prop) (cs : List Command) : Prop :=
  Statement.EverySeq A G (eraseSeq cs)

/-- The empty sequence of commands has no assignments and no guards. -/
@[simp] theorem every_nil : Every A G [] := by simp [Every]

/-- The assignments and guards of commands are those of the first and of the others. -/
@[simp] theorem every_cons (c : Command) (cs : List Command) :
    Every A G (c :: cs) ↔ c.erase.Every A G ∧ Every A G cs := by simp [Every]

/-- The assignments and guards of two sequences of commands are those of each. -/
@[simp] theorem every_append (cs ds : List Command) :
    Every A G (cs ++ ds) ↔ Every A G cs ∧ Every A G ds := by simp [Every]

/-- The assignments and guards of bodies do not depend on the indices of loops. -/
theorem everyBodies_eraseBodies {bs : List (List Command)} :
    Statement.EveryBodies A G (eraseBodies bs) ↔ ∀ b ∈ bs, Every A G b := by
  rw [Statement.everyBodies_iff, eraseBodies_eq_map, List.forall_mem_map]
  rfl

/-- The assignments and guards of a choice are its own guards and those of its bodies. -/
@[simp] theorem every_erase_cond (guards : List Predicate) (bodies : List (List Command))
    (r : TextRange) : (Command.cond guards bodies r).erase.Every A G ↔
      (∀ g ∈ guards, G g) ∧ ∀ b ∈ bodies, Every A G b := by
  simp only [erase, Statement.Every, everyBodies_eraseBodies]

/-- The assignments and guards of a loop are its own guards and those of its bodies. -/
@[simp] theorem every_erase_loop (i : Nat) (guards : List Predicate)
    (bodies : List (List Command)) (r : TextRange) :
    (Command.loop i guards bodies r).erase.Every A G ↔
      (∀ g ∈ guards, G g) ∧ ∀ b ∈ bodies, Every A G b := by
  simp only [erase, Statement.Every, everyBodies_eraseBodies]

/-- A `skip` in the place of nothing has no assignments and no guards. -/
theorem every_orSkip (h : Every A G cs) (r : TextRange) : Every A G (orSkip cs r) := by
  unfold orSkip
  split
  · simp [erase, Statement.Every]
  · exact h

mutual

/-- Removing loops adds no assignments and no guards to a command. -/
theorem every_stripLoop : ∀ c : Command, c.erase.Every A G → Every A G c.stripLoop
  | .loop .., _ => by simp [stripLoop]
  | .cond guards bodies r, h => by
    rw [every_erase_cond] at h
    simp only [stripLoop, every_cons, every_nil, and_true, every_erase_cond]
    exact ⟨h.1, every_of_mem_stripBodies bodies h.2⟩
  | .abort _, h | .skip _, h | .assign _, h | .snapshot .., h => by
    simpa only [stripLoop, every_cons, every_nil, and_true] using h

/-- Removing loops adds no assignments and no guards to a sequence. -/
theorem every_stripLoops : ∀ cs : List Command, Every A G cs → Every A G (stripLoops cs)
  | [], _ => by simp [stripLoops]
  | c :: cs, h => by
    rw [every_cons] at h
    simp only [stripLoops, every_append]
    exact ⟨every_stripLoop c h.1, every_stripLoops cs h.2⟩

/-- Removing loops adds no assignments and no guards to bodies. -/
theorem every_of_mem_stripBodies : ∀ bs : List (List Command), (∀ b ∈ bs, Every A G b) →
    ∀ b ∈ stripBodies bs, Every A G b
  | [], _ => by simp [stripBodies]
  | b :: bs, h => by
    rw [List.forall_mem_cons] at h
    simp only [stripBodies, List.forall_mem_cons]
    exact ⟨every_stripLoops b h.1, every_of_mem_stripBodies bs h.2⟩

end

/-- The premises of a derivation have only the assignments and guards of the commands. -/
theorem hereditary_every (A : Assign → Prop) (G : Predicate → Prop) :
    Hereditary (Every A G) where
  head := fun c cs h => by
    rw [every_cons] at h
    simpa using h.1
  tail := fun c cs h => ((every_cons c cs).mp h).2
  cond := fun guards bodies r h => by
    rw [every_cons, every_erase_cond] at h
    exact h.1.2
  loop := fun i guards bodies r h => by
    rw [every_cons, every_erase_loop] at h
    exact h.1.2

/-- Sequences without loops lead to sequences without loops. -/
theorem composable_nestedLoops_nil : Composable fun cs => nestedLoops cs = [] := by
  simpa only [List.eq_nil_iff_forall_not_mem, imp_false] using
    composable_forall_nestedLoops fun _ => False

end Command

/-! ## Properties that pass through a derivation -/

/-- Properties of the formulas of a derivation. -/
structure Vocabulary where
  /-- Of a predicate that may be about an auxiliary name. -/
  predicate : Option String → Predicate → Prop
  /-- Of the bound of a loop. -/
  bound : IntExpr → Prop
  /-- Of an assignment. -/
  assign : Assign → Prop

/-- The properties pass to whatever proof rules and weakest preconditions build. -/
structure Vocabulary.Closed (V : Vocabulary) : Prop where
  weaken : ∀ k p, V.predicate none p → V.predicate k p
  const : ∀ b, V.predicate none (.const b)
  not : ∀ k p, V.predicate k p → V.predicate k (.not p)
  binary : ∀ k op p q, V.predicate k p → V.predicate k q → V.predicate k (.binary op p q)
  /-- Step 4 says that a bound is positive. -/
  positive : ∀ b, V.bound b → V.predicate none (.comp .gt b (.const 0))
  /-- Step 5 compares a bound with the value recorded for it. -/
  decreased : ∀ b x, V.bound b → V.predicate (some x) (.comp .lt b (.name x))
  /-- Step 6 says that a bound has a certain value. -/
  unchanged : ∀ b x, V.bound b → V.predicate (some x) (.comp .eq (.name x) b)
  /-- A bound may be recorded under an auxiliary name. -/
  recording : ∀ b stem n r, V.bound b →
    V.assign ⟨[.name (auxiliaryName stem n)], [.int b], r⟩
  assigned : ∀ k a q p, V.assign a → V.predicate k q → a.wp q = .ok p → V.predicate k p
  /-- The name under which a bound is recorded is replaced by the bound. -/
  recorded : ∀ k x b r q p, V.assign ⟨[.name x], [.int b], r⟩ →
    V.predicate k q ∨ V.predicate (some x) q → q.subst (.single x (.int b)) = .ok p →
    V.predicate k p

/-- The specifications of loops have the properties. -/
def Vocabulary.Specified (V : Vocabulary) (specs : List LoopSpec) : Prop :=
  ∀ spec ∈ specs, V.predicate none spec.invariant ∧ V.bound spec.bound

variable {V : Vocabulary} {k : Option String} {x : String} {p q r pre : Predicate}
  {b : IntExpr} {cs before after : List Command} {g : Choice} {l : Loop} {spec : LoopSpec}
  {specs : List LoopSpec} {context : List Frame} {n : Nat} {premise : Premise}

namespace Vocabulary.Closed

/-- The disjunction of guards belongs to the vocabulary. -/
theorem anyOf (hV : V.Closed) {guards : List Predicate}
    (h : ∀ g ∈ guards, V.predicate none g) : V.predicate none (.anyOf guards) := by
  cases guards with
  | nil => exact hV.const false
  | cons g guards =>
    rw [List.forall_mem_cons] at h
    change V.predicate none (guards.foldl (.binary .or) g)
    obtain ⟨hg, hguards⟩ := h
    induction guards generalizing g with
    | nil => exact hg
    | cons g' guards ih =>
      rw [List.forall_mem_cons] at hguards
      exact ih (.binary .or g g') (hV.binary _ _ _ _ hg hguards.1) hguards.2

/-- A weakest precondition of a command belongs to the vocabulary. -/
theorem wp (hV : V.Closed) {c : Command} (hc : c.erase.Every V.assign (V.predicate none))
    (hq : V.predicate k q) (h : c.wp q = .ok p) : V.predicate k p := by
  cases c with
  | abort =>
    cases h
    exact hV.weaken k _ (hV.const false)
  | skip =>
    cases h
    exact hq
  | assign a =>
    rw [Command.erase, Statement.Every] at hc
    exact hV.assigned k a q p hc hq h
  | snapshot x b range =>
    rw [Command.erase, Statement.Every] at hc
    exact hV.recorded k x b range q p hc (.inl hq) (eq_ok_of_mapError_eq_ok h)
  | cond | loop => cases h

/-- A weakest precondition of commands belongs to the vocabulary. -/
theorem wpSeq (hV : V.Closed) (hcs : Command.Every V.assign (V.predicate none) cs)
    (hq : V.predicate k q) (h : Command.wpSeq q cs = .ok p) : V.predicate k p := by
  induction cs generalizing p with
  | nil =>
    cases h
    exact hq
  | cons c cs ih =>
    rw [Command.every_cons] at hcs
    obtain ⟨between, hbetween, h⟩ := exists_of_bind_eq_ok h
    exact hV.wp hcs.1 (ih hcs.2 hbetween) h

/-- Before a bound is recorded, nothing is said about the name under which it will be. -/
theorem wpSeq_snapshot (hV : V.Closed) {range : TextRange}
    (hcs : Command.Every V.assign (V.predicate none) (.snapshot x b range :: cs))
    (hq : V.predicate (some x) q) (h : Command.wpSeq q (.snapshot x b range :: cs) = .ok p) :
    V.predicate k p := by
  rw [Command.every_cons, Command.erase, Statement.Every] at hcs
  obtain ⟨between, hbetween, h⟩ := exists_of_bind_eq_ok h
  exact hV.recorded k x b range between p hcs.1 (.inr (hV.wpSeq hcs.2 hq hbetween))
    (eq_ok_of_mapError_eq_ok h)

end Vocabulary.Closed

/-! ## The invariant of triples -/

/-- The commands start by recording a bound, and the postcondition is about the recorded value. -/
def Triple.Recorded (V : Vocabulary) (t : Triple) : Prop :=
  ∃ x b range cs, t.commands = .snapshot x b range :: cs ∧ Command.nestedLoops cs = [] ∧
    V.predicate (some x) t.post

/-- Everything in a triple has the properties, and is about the name `k` if there is one. -/
structure Triple.Within (V : Vocabulary) (k : Option String) (t : Triple) : Prop where
  pre : V.predicate k t.pre
  commands : Command.Every V.assign (V.predicate none) t.commands
  post : V.predicate k t.post ∨ t.Recorded V
  /-- What is asked about a single name has no loops. -/
  loops : k ≠ none → Command.nestedLoops t.commands = []

/-- A recorded triple has no loops. -/
theorem Triple.Recorded.nestedLoops_eq_nil {t : Triple} (h : t.Recorded V) :
    Command.nestedLoops t.commands = [] := by
  obtain ⟨x, b, range, cs, hcs, hnil, -⟩ := h
  rw [hcs, Command.nestedLoops_cons, hnil]
  simp [Command.nestedLoop]

/-- The weakest precondition of an elementary sequence has the properties. -/
theorem Triple.Within.wpSeq (hV : V.Closed) {t : Triple} (h : t.Within V k)
    (hpre : Command.wpSeq t.post t.commands = .ok pre) : V.predicate k pre := by
  rcases h.post with hpost | ⟨x, b, range, cs, hcs, -, hpost⟩
  · exact hV.wpSeq h.commands hpost hpre
  · have hcommands := h.commands
    rw [hcs] at hpre hcommands
    exact hV.wpSeq_snapshot hcommands hpost hpre

namespace Choice

/-- A branch records the same bound as the sequence that the choice stands in. -/
theorem recorded_branch {body : List Command} (hbody : body ∈ g.bodies)
    (h : Triple.Recorded V ⟨q, r, before ++ .cond g.guards g.bodies g.range :: after⟩) :
    Triple.Recorded V
      ⟨pre, r, Command.orSkip before g.range ++ body ++ Command.orSkip after g.range⟩ := by
  have hloops := h.nestedLoops_eq_nil
  obtain ⟨x, b, range, cs, hcs, hnil, hpost⟩ := h
  cases before with
  | nil => cases hcs
  | cons c before =>
    obtain ⟨rfl, -⟩ := List.cons.inj hcs
    refine ⟨x, b, range, before ++ body ++ Command.orSkip after g.range, rfl, ?_, hpost⟩
    have hbranch := Command.composable_nestedLoops_nil.branch hloops hbody
    rw [List.append_assoc] at hbranch ⊢
    exact hbranch

/-- The premises for a choice keep to the name of the triple. -/
theorem within_of_subgoal? (hV : V.Closed) {d : Subgoal}
    (h : Triple.Within V k ⟨q, r, before ++ .cond g.guards g.bodies g.range :: after⟩)
    (hp : premise ∈ g.premises before after q r) (hd : premise.subgoal? context n = some d) :
    d.triple.Within V k ∧ q.freeNames ⊆ d.triple.pre.freeNames := by
  obtain ⟨hpre, hcommands, hpost, hloops⟩ := h
  have hparts := hcommands
  rw [Command.every_append, Command.every_cons, Command.every_erase_cond] at hparts
  obtain ⟨hbefore, ⟨hguards, hbodies⟩, hafter⟩ := hparts
  have hfirst := Command.every_orSkip hbefore g.range
  simp only [Choice.premises, List.mem_cons, List.mem_map] at hp
  rcases hp with rfl | ⟨⟨⟨guard, body⟩, i⟩, hi, rfl⟩
  · cases hd
    refine ⟨⟨hpre, hfirst, .inl (hV.weaken k _ (hV.anyOf hguards)), fun hk => ?_⟩,
      List.Subset.refl _⟩
    exact Command.composable_nestedLoops_nil.entry (hloops hk) g.range
  · obtain ⟨hguard, hbody⟩ := List.of_mem_zip (List.fst_mem_of_mem_zipIdx hi)
    -- The branch is entered where the guard holds after the commands in front.
    cases hwp : Command.wpSeq guard (Command.orSkip before g.range) with
    | error e =>
      simp only [Premise.subgoal?, hwp, bind, Except.bind] at hd
      cases hd
    | ok reachable =>
      simp only [Premise.subgoal?, hwp, bind, Except.bind] at hd
      cases hd
      have hreachable := hV.wpSeq hfirst (hguards guard hguard) hwp
      refine ⟨⟨hV.binary _ _ _ _ hpre (hV.weaken k _ hreachable), ?_, ?_, fun hk => ?_⟩, ?_⟩
      · rw [Command.every_append, Command.every_append]
        exact ⟨⟨hfirst, hbodies body hbody⟩, Command.every_orSkip hafter g.range⟩
      · exact hpost.imp_right (recorded_branch hbody)
      · exact Command.composable_nestedLoops_nil.branch (hloops hk) hbody
      · rw [Predicate.and, Predicate.freeNames_binary]
        exact List.subset_append_left _ _

end Choice

/-! ## Steps about the bounds of inner loops -/

/-- The frame is that of step 6 of the rule for loops, which says that an inner loop leaves the
bound alone. -/
def Frame.IsStability (f : Frame) : Prop :=
  f.kind = .loop ∧ f.step = some 6

instance : DecidablePred Frame.IsStability := fun f =>
  inferInstanceAs (Decidable (f.kind = .loop ∧ f.step = some 6))

/-- A context without stability steps counts none. -/
theorem Frame.countP_isStability_eq_zero {context : List Frame} :
    context.countP (·.IsStability) = 0 ↔ ∀ f ∈ context, ¬ f.IsStability := by
  simp only [List.countP_eq_zero, decide_eq_true_eq]

namespace Loop

/-- The premises of step 6 are those for the bodies of inner loops. -/
theorem isStability_iff (hp : premise ∈ l.premises spec before after q r) :
    premise.frame.IsStability ↔ ∃ m ∈ Command.bodyLoops l.bodies, ∃ body ∈ m.bodies.zipIdx 1,
      premise = l.stability spec m body := by
  constructor
  · rintro ⟨-, hstep⟩
    simp only [Loop.premises, List.mem_append, List.mem_map, List.mem_flatMap, List.mem_cons,
      List.not_mem_nil, or_false] at hp
    rcases hp with (((rfl | ⟨branch, -, rfl⟩) | rfl | rfl) | ⟨branch, -, rfl⟩) |
      ⟨m, hm, body, hbody, rfl⟩
    · simp [Loop.entry, Loop.frame] at hstep
    · simp [Loop.preservation, Loop.frame] at hstep
    · simp [Loop.exit, Loop.frame] at hstep
    · simp [Loop.positivity, Loop.frame] at hstep
    · simp [Loop.decrease, Loop.frame] at hstep
    · exact ⟨m, hm, body, hbody, rfl⟩
  · rintro ⟨m, -, body, -, rfl⟩
    exact ⟨rfl, rfl⟩

/-- The premises for a loop are about no auxiliary name, except that those of step 6 are about a new
one, which their preconditions mention. -/
theorem within_of_subgoal? (hV : V.Closed) (hspec : V.predicate none spec.invariant)
    (hbound : V.bound spec.bound) {d : Subgoal}
    (h : Triple.Within V none ⟨q, r, before ++ .loop l.index l.guards l.bodies l.range :: after⟩)
    (hp : premise ∈ l.premises spec before after q r)
    (hd : premise.subgoal? context n = some d) :
    ¬ premise.frame.IsStability ∧ d.triple.Within V none ∨
      premise.frame.IsStability ∧ d.used = n + 1 ∧
        d.triple.Within V (some (auxiliaryName 'T' n)) ∧
        auxiliaryName 'T' n ∈ d.triple.pre.freeNames := by
  obtain ⟨hpre, hcommands, hpost, -⟩ := h
  -- where there is a loop, no bound has been recorded
  have hr : V.predicate none r := by
    rcases hpost with hpost | hrecorded
    · exact hpost
    · simpa using hrecorded.nestedLoops_eq_nil
  rw [Command.every_append, Command.every_cons, Command.every_erase_loop] at hcommands
  obtain ⟨hbefore, ⟨hguards, hbodies⟩, hafter⟩ := hcommands
  have hbranch : ∀ {guard body i}, ((guard, body), i) ∈ l.branches →
      V.predicate none (spec.invariant.and guard) ∧
        Command.Every V.assign (V.predicate none) body := by
    intro guard body i hi
    obtain ⟨hguard, hbody⟩ := List.of_mem_zip (List.fst_mem_of_mem_zipIdx hi)
    exact ⟨hV.binary _ _ _ _ hspec (hguards guard hguard), hbodies body hbody⟩
  by_cases hstability : premise.frame.IsStability
  · obtain ⟨m, hm, ⟨body, j⟩, hj, rfl⟩ := (isStability_iff hp).mp hstability
    cases hd
    have hbody : body ∈ m.bodies := List.fst_mem_of_mem_zipIdx hj
    have hevery := (Command.hereditary_every _ _).of_bodyLoops hbody l.bodies hm hbodies
    have hunchanged := hV.unchanged spec.bound (auxiliaryName 'T' n) hbound
    refine .inr ⟨hstability, rfl, ⟨hunchanged, Command.every_stripLoops body hevery,
      .inl hunchanged, fun _ => Command.nestedLoops_stripLoops body⟩, ?_⟩
    rw [Predicate.freeNames_comp, IntExpr.freeNames_name]
    exact List.mem_append_left _ List.mem_cons_self
  · refine .inl ⟨hstability, ?_⟩
    simp only [Loop.premises, List.mem_append, List.mem_map, List.mem_flatMap, List.mem_cons,
      List.not_mem_nil, or_false] at hp
    rcases hp with (((rfl | ⟨⟨⟨guard, body⟩, i⟩, hi, rfl⟩) | rfl | rfl) |
      ⟨⟨⟨guard, body⟩, i⟩, hi, rfl⟩) | ⟨m, hm, ⟨body, j⟩, hj, rfl⟩
    · cases hd
      exact ⟨hpre, Command.every_orSkip hbefore l.range, .inl hspec, fun hk => absurd rfl hk⟩
    · cases hd
      exact ⟨(hbranch hi).1, (hbranch hi).2, .inl hspec, fun hk => absurd rfl hk⟩
    · cases hd
      have hexit := hV.binary _ .and _ _ hspec (hV.not _ _ (hV.anyOf hguards))
      exact ⟨hexit, Command.every_orSkip hafter l.range, .inl hr, fun hk => absurd rfl hk⟩
    · cases hd
    · cases hd
      refine ⟨(hbranch hi).1, ?_, .inr ?_, fun hk => absurd rfl hk⟩
      · rw [Command.every_cons, Command.erase, Statement.Every]
        exact ⟨hV.recording _ _ _ _ hbound, Command.every_stripLoops body (hbranch hi).2⟩
      · exact ⟨_, _, _, _, rfl, Command.nestedLoops_stripLoops body, hV.decreased _ _ hbound⟩
    · exact absurd ⟨rfl, rfl⟩ hstability

/-- What is positive is a bound while the invariant and a guard hold. -/
theorem predicate_of_fact (hV : V.Closed) (hspec : V.predicate none spec.invariant)
    (hbound : V.bound spec.bound)
    (h : Triple.Within V k ⟨q, r, before ++ .loop l.index l.guards l.bodies l.range :: after⟩)
    (hp : premise ∈ l.premises spec before after q r) (hgoal : premise.goal = .fact p) :
    V.predicate none p ∧ ¬ premise.frame.IsStability := by
  have hcommands := h.commands
  rw [Command.every_append, Command.every_cons, Command.every_erase_loop] at hcommands
  obtain ⟨-, ⟨hguards, -⟩, -⟩ := hcommands
  simp only [Loop.premises, List.mem_append, List.mem_map, List.mem_flatMap, List.mem_cons,
    List.not_mem_nil, or_false] at hp
  rcases hp with (((rfl | ⟨branch, -, rfl⟩) | rfl | rfl) | ⟨branch, -, rfl⟩) |
    ⟨m, -, body, -, rfl⟩
  · cases hgoal
  · cases hgoal
  · cases hgoal
  · cases hgoal
    refine ⟨?_, fun hstability => by cases hstability.2⟩
    exact hV.binary _ _ _ _ (hV.binary _ _ _ _ hspec (hV.anyOf hguards))
      (hV.positive _ hbound)
  · cases hgoal
  · cases hgoal

end Loop

/-! ## The invariant of subgoals -/

namespace Subgoal

/-- The subgoal is that of a premise of step 6. -/
def IsStability (c : Subgoal) : Prop :=
  ∃ f, c.context.getLast? = some f ∧ f.IsStability

/-- Everything in a subgoal has the properties. It is below step 6, and then only once, exactly if
it is about an auxiliary name, which has number `k` and is mentioned in the precondition. -/
structure Scoped (V : Vocabulary) (k : Option Nat) (c : Subgoal) : Prop where
  within : c.triple.Within V (k.map (auxiliaryName 'T'))
  frames : c.context.countP (·.IsStability) = k.toList.length
  mentioned : ∀ n, k = some n → auxiliaryName 'T' n ∈ c.triple.pre.freeNames

variable {c d : Subgoal} {i : Nat} {k : Option Nat} {path : List Nat} {o : Obligation}

/-- A subgoal is about stability if its premise is. -/
theorem isStability_of_subgoal? (hd : premise.subgoal? context n = some d) :
    d.IsStability ↔ premise.frame.IsStability := by
  rw [IsStability, context_of_subgoal? hd, List.getLast?_concat]
  simp

/-- Subgoals of step 6 are met with a new auxiliary name. -/
theorem marks_isStability (specs : List LoopSpec) : Marks specs IsStability := by
  rintro c i p n d ⟨ps, -, hps, hp, -⟩ hd hstability
  rw [isStability_of_subgoal? hd] at hstability
  have hmem := List.mem_of_getElem? hp
  rcases cases_of_premises hps hmem with ⟨before, g, after, -, -, rfl⟩ |
    ⟨before, l, after, spec, -, -, -, rfl⟩
  · exact absurd hstability.1 (Choice.asks_of_mem_premises hmem).1
  · obtain ⟨m, -, body, -, rfl⟩ := (Loop.isStability_iff hmem).mp hstability
    cases hd
    exact Nat.lt_succ_self n

/-- A step down the tree keeps to the auxiliary name, or is step 6 and takes a new one. -/
theorem Scoped.of_child (hV : V.Closed) (hspecs : V.Specified specs) (h : c.Scoped V k)
    (hchild : c.Child specs i d) :
    ¬ d.IsStability ∧ d.Scoped V k ∨
      k = none ∧ d.IsStability ∧ ∃ n, d.used = n + 1 ∧ d.Scoped V (some n) := by
  obtain ⟨⟨pre, post, commands⟩, context, used⟩ := c
  obtain ⟨p, n, ⟨ps, -, hps, hp, -⟩, hd⟩ := hchild
  have hmem := List.mem_of_getElem? hp
  obtain ⟨hwithin, hframes, hmentioned⟩ := h
  have hcontext := context_of_subgoal? hd
  rw [isStability_of_subgoal? hd]
  rcases cases_of_premises hps hmem with ⟨before, g, after, rfl, -, rfl⟩ |
    ⟨before, l, after, spec, rfl, -, hspec, rfl⟩
  · obtain ⟨hd', hsubset⟩ := Choice.within_of_subgoal? hV hwithin hmem hd
    have hkind := (Choice.asks_of_mem_premises hmem).1
    refine .inl ⟨fun hstability => hkind hstability.1, hd', ?_, fun n hn => ?_⟩
    · rw [hcontext, List.countP_append, hframes]
      simp [Frame.IsStability, hkind]
    · exact hsubset (hmentioned n hn)
  · -- what is about an auxiliary name has no loops
    obtain rfl : k = none := by
      by_contra hk
      have hnil := hwithin.loops (by simpa using hk)
      simp at hnil
    obtain ⟨hinvariant, hbound⟩ := hspecs spec (List.mem_of_getElem? hspec)
    -- Step 6 takes a new auxiliary name, and from there on subgoals are about this name.
    rcases Loop.within_of_subgoal? hV hinvariant hbound hwithin hmem hd with
      ⟨hstability, hd'⟩ | ⟨hstability, hused, hd', hfree⟩
    · refine .inl ⟨hstability, hd', ?_, fun n hn => by cases hn⟩
      rw [hcontext, List.countP_append, hframes]
      simp [hstability]
    · refine .inr ⟨rfl, hstability, n, hused, hd', ?_, fun n' hn' => ?_⟩
      · rw [hcontext, List.countP_append, hframes]
        simp [hstability]
      · cases hn'
        exact hfree

/-- The derivation for a program starts from a scoped subgoal, if the program and its specification
have the properties. -/
theorem scoped_root {spec : Spec} {program : Program}
    (hpre : V.predicate none spec.precondition) (hpost : V.predicate none spec.postcondition)
    (hprogram : Statement.EverySeq V.assign (V.predicate none) program.statements) :
    (root spec program).Scoped V none where
  within := by
    refine ⟨hpre, ?_, .inl hpost, fun hk => absurd rfl hk⟩
    rw [root, Command.Every, Statement.eraseSeq_numberSeq]
    exact hprogram
  frames := by simp [root]
  mentioned := fun n hn => by cases hn

/-- Everywhere in the tree of a scoped subgoal there are scoped subgoals. -/
theorem At.scoped (hV : V.Closed) (hspecs : V.Specified specs) (hpath : c.At specs path d)
    (h : c.Scoped V k) : ∃ k', d.Scoped V k' := by
  refine At.invariant (P := fun c => ∃ k, c.Scoped V k) ?_ hpath ⟨k, h⟩
  rintro c i d hchild ⟨k, hc⟩
  rcases hc.of_child hV hspecs hchild with ⟨-, hd⟩ | ⟨-, -, n, -, hd⟩
  · exact ⟨k, hd⟩
  · exact ⟨some n, hd⟩

/-- A goal without an auxiliary variable in scope is not about stability. -/
theorem Scoped.not_isStability (h : c.Scoped V none) : ¬ c.IsStability := by
  rintro ⟨f, hf, hstability⟩
  exact Frame.countP_isStability_eq_zero.mp h.frames f (List.mem_of_getLast? hf) hstability

/-- Below a subgoal about an auxiliary name all subgoals are about that name, and step 6 does not
come up again. -/
theorem At.scoped_some (hV : V.Closed) (hspecs : V.Specified specs) (hpath : c.At specs path d)
    (h : c.Scoped V (some n)) : d.Scoped V (some n) ∧ (d.IsStability → d = c) := by
  induction hpath with
  | here c => exact ⟨h, fun _ => rfl⟩
  | step hchild _ ih =>
    rcases h.of_child hV hspecs hchild with ⟨hstability, hd⟩ | ⟨hnone, -⟩
    · obtain ⟨he, heq⟩ := ih hd
      refine ⟨he, fun hlast => absurd ?_ hstability⟩
      rw [← heq hlast]
      exact hlast
    · cases hnone

/-- Below a subgoal about no auxiliary name a subgoal is about none either, or it is found below
step 6 and about the name which that step has taken. -/
theorem At.scoped_cases (hV : V.Closed) (hspecs : V.Specified specs) (hpath : c.At specs path d)
    (h : c.Scoped V none) : d.Scoped V none ∨
      ∃ path₁ path₂ e n, c.At specs path₁ e ∧ e.IsStability ∧ e.used = n + 1 ∧
        e.Scoped V (some n) ∧ e.At specs path₂ d := by
  induction hpath with
  | here c => exact .inl h
  | @step c c' d i path hchild hpath ih =>
    rcases h.of_child hV hspecs hchild with ⟨-, hc'⟩ | ⟨-, hstability, n, hused, hc'⟩
    · refine (ih hc').imp_right ?_
      rintro ⟨path₁, path₂, e, n, hpath₁, he⟩
      exact ⟨i :: path₁, path₂, e, n, .step hchild hpath₁, he⟩
    · exact .inr ⟨[i], path, c', n, .step hchild (.here c'), hstability, hused, hc', hpath⟩

/-- The obligations of a scoped subgoal have the properties. They are below step 6, and then only
once, exactly if they are about an auxiliary name, which they mention. -/
theorem Scoped.predicate_of_origin (hV : V.Closed) (hspecs : V.Specified specs)
    (h : c.Scoped V k) (ho : c.Origin specs o) :
    V.predicate (k.map (auxiliaryName 'T')) o.predicate ∧
      o.context.countP (·.IsStability) = k.toList.length ∧
      ∀ n, k = some n → auxiliaryName 'T' n ∈ o.predicate.freeNames := by
  obtain ⟨⟨pre, post, commands⟩, context, used⟩ := c
  obtain ⟨hwithin, hframes, hmentioned⟩ := h
  cases ho with
  | leaf hleaf =>
    obtain ⟨⟨pre', hpre, hpredicate⟩, hcontext, -⟩ := hleaf
    rw [hpredicate]
    refine ⟨hV.binary _ _ _ _ hwithin.pre (hwithin.wpSeq hV hpre), ?_, fun n hn => ?_⟩
    · rw [← hframes]
      rcases hcontext with hcontext | ⟨f, hkind, hcontext⟩
      · rw [hcontext]
      · rw [hcontext, List.countP_append]
        simp [Frame.IsStability, hkind]
    · rw [Predicate.implies, Predicate.freeNames_binary]
      exact List.mem_append_left _ (hmentioned n hn)
  | @fact ps p q hps hp hgoal ho =>
    subst ho
    rcases cases_of_premises hps hp with ⟨before, g, after, rfl, -, rfl⟩ |
      ⟨before, l, after, spec, rfl, -, hspec, rfl⟩
    · -- the premises for a choice are triples
      have hasks := (Choice.asks_of_mem_premises hp).2
      rw [hgoal] at hasks
      exact hasks.elim
    · -- a loop is left, so the subgoal is not about an auxiliary name
      obtain rfl : k = none := by
        by_contra hk
        have hnil := hwithin.loops (by simpa using hk)
        simp at hnil
      obtain ⟨hinvariant, hbound⟩ := hspecs spec (List.mem_of_getElem? hspec)
      obtain ⟨hq, hstability⟩ := Loop.predicate_of_fact hV hinvariant hbound hwithin hp hgoal
      refine ⟨hq, ?_, fun n hn => by cases hn⟩
      rw [← hframes, List.countP_append]
      simp [hstability]

end Subgoal

end GuardedCommand
