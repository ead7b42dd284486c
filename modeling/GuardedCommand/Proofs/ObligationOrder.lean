import GuardedCommand.Proofs.LoopSpecifications
import GuardedCommand.Proofs.Subgoals

/-! # The order of obligations

Every use of a proof rule gives a stretch of the obligations of a program. The stretch is made of
blocks, one for each premise in the order of the premises, and no block is empty. The frame of the
premise stands behind the context of the rule in the context of every obligation of its block, so
that a failed obligation can be traced to the step that it belongs to.

* `Choice.steps`, `Loop.steps`: the steps of the rules, in order.
* `InBlocks`: obligations that are made of one block for each step.
* `Triple.contextual`: there are obligations for every triple, in the context of the triple.
* `Triple.inBlocks_of_choice`, `Triple.inBlocks_of_loop`: the blocks of both rules.
* `length_of_single_loop`: the number of obligations for a loop with elementary bodies.
* `obligations_in_order`: the order for programs.
-/

namespace GuardedCommand

/-! ## The steps of a rule -/

/-- A frame without the text that it concerns. -/
def Frame.bare (f : Frame) : Frame :=
  { f with range := .zero }

/-- The steps of the rule for a choice: that some guard holds, and each branch. -/
def Choice.steps (g : Choice) : List Frame :=
  { kind := .choice, step := some 1, range := .zero } ::
  (List.range' 1 (g.guards.zip g.bodies).length).map fun i =>
    { kind := .choice, step := some 2, branch := some i, range := .zero }

/-- A step of the rule for a loop. -/
def Loop.step (l : Loop) (n : Nat) : Frame :=
  { kind := .loop, step := some n, loop := some l.index, range := .zero }

/-- The steps of the rule for a loop: steps 1 and 3 to 4 once, steps 2 and 5 for each branch, and
step 6 for each body of each inner loop. -/
def Loop.steps (l : Loop) : List Frame :=
  let branches := List.range' 1 (l.guards.zip l.bodies).length
  [l.step 1] ++
  branches.map (fun i => { l.step 2 with branch := some i }) ++
  [l.step 3, l.step 4] ++
  branches.map (fun i => { l.step 5 with branch := some i }) ++
  (Command.bodyLoops l.bodies).flatMap fun m =>
    (List.range' 1 m.bodies.length).map fun j =>
      { l.step 6 with branch := some j, nestedLoop := some m.index }

variable {context : List Frame} {before after : List Command} {q r : Predicate} {g : Choice}
  {l : Loop} {spec : LoopSpec} {specs : List LoopSpec} {ps : List Premise} {p : Premise}
  {os obs : List Obligation} {n n' : Nat}

/-- What is built from the places of a list only. -/
theorem map_zipIdx {α β : Type} {f : α × Nat → β} {step : Nat → β} {as : List α}
    (h : ∀ a i, f (a, i) = step i) : (as.zipIdx 1).map f = (List.range' 1 as.length).map step := by
  rw [← List.zipIdx_map_snd 1 as, List.map_map]
  exact List.map_congr_left fun a _ => h a.1 a.2

/-- The premises of a choice stand in the order of its steps. -/
theorem Choice.map_bare_premises :
    (g.premises before after q r).map (fun p => p.frame.bare) = g.steps := by
  rw [Choice.premises, List.map_cons, List.map_map, Choice.steps]
  congr 1
  exact map_zipIdx fun _ _ => rfl

/-- The premises of a loop stand in the order of its steps. -/
theorem Loop.map_bare_premises :
    (l.premises spec before after q r).map (fun p => p.frame.bare) = l.steps := by
  have hpreservation : (l.branches.map (l.preservation spec)).map (fun p => p.frame.bare) =
      (List.range' 1 (l.guards.zip l.bodies).length).map
        fun i => { l.step 2 with branch := some i } := by
    rw [List.map_map]
    exact map_zipIdx fun _ _ => rfl
  have hdecrease : (l.branches.map (l.decrease spec)).map (fun p => p.frame.bare) =
      (List.range' 1 (l.guards.zip l.bodies).length).map
        fun i => { l.step 5 with branch := some i } := by
    rw [List.map_map]
    exact map_zipIdx fun _ _ => rfl
  have hstability : ∀ m : Loop,
      ((m.bodies.zipIdx 1).map (l.stability spec m)).map (fun p => p.frame.bare) =
        (List.range' 1 m.bodies.length).map
          fun j => { l.step 6 with branch := some j, nestedLoop := some m.index } := by
    intro m
    rw [List.map_map]
    exact map_zipIdx fun _ _ => rfl
  simp only [Loop.premises, Loop.steps, List.map_append, List.map_flatMap, hpreservation,
    hdecrease, hstability]
  rfl

/-! ## Blocks of obligations -/

/-- The obligations are made of blocks, one for each step in order. No block is empty, and that of
step 4 of the rule for loops is a single obligation. In the context of every obligation of a block,
the given context is followed by a frame of the step. -/
def InBlocks (context steps : List Frame) (os : List Obligation) : Prop :=
  ∃ blocks : List (List Obligation), os = blocks.flatten ∧
    List.Forall₂ (fun step block => block ≠ [] ∧
      (step.kind = .loop → step.step = some 4 → block.length = 1) ∧
      ∃ f : Frame, f.bare = step ∧ ∀ o ∈ block, context ++ [f] <+: o.context) steps blocks

/-- There are obligations, and the context of the triple begins the context of each. -/
def Triple.Contextual (_ : Triple) (context : List Frame) (os : List Obligation) : Prop :=
  os ≠ [] ∧ ∀ o ∈ os, context <+: o.context

/-- The share of a premise is not empty, and its contexts begin with the frame of the premise. -/
theorem Premise.YieldsIn.contextual (h : p.YieldsIn Triple.Contextual context os) :
    (os ≠ [] ∧ ∀ o ∈ os, context ++ [p.frame] <+: o.context) ∧
      ∀ q, p.goal = .fact q → os.length = 1 := by
  unfold Premise.YieldsIn at h
  split at h
  · subst h
    refine ⟨⟨List.cons_ne_nil _ _, ?_⟩, fun _ _ => rfl⟩
    exact List.forall_mem_singleton.mpr List.prefix_rfl
  · next hgoal => exact ⟨h, fun q hq => by cases hgoal.symm.trans hq⟩
  · exact h.elim
  · next hgoal =>
    obtain ⟨n, h⟩ := h
    exact ⟨h, fun q hq => by cases hgoal.symm.trans hq⟩

/-- A rule with a premise has obligations in its context. -/
theorem CoversIn.contextual (h : CoversIn Triple.Contextual context ps os) (hne : ps ≠ [])
    (t : Triple) : t.Contextual context os := by
  obtain ⟨p, hp⟩ := List.exists_mem_of_ne_nil ps hne
  refine ⟨?_, fun o ho => ?_⟩
  · obtain ⟨share, hyields, hsubset⟩ := h.exists_share hp
    obtain ⟨o, ho⟩ := List.exists_mem_of_ne_nil share hyields.contextual.1.1
    exact List.ne_nil_of_mem (hsubset ho)
  · obtain ⟨p', -, share, hyields, hshare⟩ := h.exists_of_mem ho
    exact (List.prefix_append _ _).trans (hyields.contextual.1.2 o hshare)

/-- Every triple that gives obligations gives some, in its context. -/
theorem Triple.contextual {t : Triple} (h : t.obligations specs context n = .ok (os, n')) :
    t.Contextual context os := by
  refine Triple.derivation_induction ?_ ?_ ?_ h
  · intro q r cs pre context context' _ hcontext
    refine ⟨List.cons_ne_nil _ _, List.forall_mem_singleton.mpr ?_⟩
    rcases hcontext with rfl | ⟨f, -, rfl⟩
    · exact List.prefix_rfl
    · exact List.prefix_append _ _
  · intro q r before g after context obs _ _ hcovers
    exact hcovers.contextual (List.cons_ne_nil _ _) _
  · intro q r before l after spec context obs _ hcovers
    exact hcovers.contextual (List.cons_ne_nil _ _) _

/-- The shares of premises are blocks for the steps of the premises. -/
theorem inBlocks_of_coversIn
    (hps : ∀ p ∈ ps, p.frame.kind = .loop → p.frame.step = some 4 → ∃ q, p.goal = .fact q)
    (h : CoversIn Triple.Contextual context ps os) :
    InBlocks context (ps.map fun p => p.frame.bare) os := by
  obtain ⟨shares, rfl, hshares⟩ := h
  refine ⟨shares, rfl, ?_⟩
  rw [List.forall₂_map_left_iff]
  induction hshares with
  | nil => exact .nil
  | @cons p share ps shares hyields _ ih =>
    rw [List.forall_mem_cons] at hps
    obtain ⟨⟨hne, hprefix⟩, hfact⟩ := hyields.contextual
    refine .cons ⟨hne, fun hkind hstep => ?_, p.frame, rfl, hprefix⟩ (ih hps.2)
    obtain ⟨q, hq⟩ := hps.1 hkind hstep
    exact hfact q hq

/-- The obligations for a choice are in blocks for its steps. -/
theorem Triple.inBlocks_of_choice {t : Triple} (hrule : Rule.of t.commands = .choice before g after)
    (h : t.obligations specs context n = .ok (os, n')) : InBlocks context g.steps os := by
  obtain ⟨ps, hps, hcovers⟩ := Triple.coversIn_of_obligations (M := Triple.Contextual)
    (by simp [hrule]) (by simp [hrule]) h fun t' _ _ _ _ _ ht' => Triple.contextual ht'
  rw [hrule] at hps
  cases hps
  rw [← Choice.map_bare_premises]
  refine inBlocks_of_coversIn (fun p hp hkind => ?_) hcovers
  exact absurd hkind (Choice.asks_of_mem_premises hp).1

/-- The obligations for a loop are in blocks for its steps. -/
theorem Triple.inBlocks_of_loop {t : Triple} (hrule : Rule.of t.commands = .loop before l after)
    (h : t.obligations specs context n = .ok (os, n')) : InBlocks context l.steps os := by
  obtain ⟨ps, hps, hcovers⟩ := Triple.coversIn_of_obligations (M := Triple.Contextual)
    (by simp [hrule]) (by simp [hrule]) h fun t' _ _ _ _ _ ht' => Triple.contextual ht'
  rw [hrule] at hps
  simp only [Rule.premises] at hps
  split at hps
  · next spec hspec =>
    cases hps
    rw [← Loop.map_bare_premises]
    refine inBlocks_of_coversIn (fun p hp _ hstep => ?_) hcovers
    rcases Loop.asks_of_mem_premises hp with rfl | ⟨-, hne, -, -⟩
    · exact ⟨_, rfl⟩
    · exact absurd hstep hne
  · cases hps

/-! ## Loops in the order of the text -/

/-- The inner loops of a loop of a program come in the order of the text, and their numbers follow
that of the loop. -/
theorem Program.bodyLoops_in_order {program : Program} (hl : l ∈ program.numberedLoops) :
    (Command.bodyLoops l.bodies).map Loop.statement =
        Statement.loopListBodies (Command.eraseBodies l.bodies) ∧
      (Command.bodyLoops l.bodies).map Loop.index =
        List.range' (l.index + 1) (Command.bodyLoops l.bodies).length := by
  obtain ⟨-, hbodies⟩ := Program.loop?_index hl
  have hcommands := Statement.map_command_bodyLoops l.index (Command.eraseBodies l.bodies)
  rw [← hbodies] at hcommands
  have hlength := congrArg List.length hcommands
  rw [List.length_map, List.length_map, List.length_zipIdx] at hlength
  -- both lists are compared place by place
  have hat : ∀ i m, (Command.bodyLoops l.bodies)[i]? = some m → m.index = l.index + i + 1 ∧
      (Statement.loopListBodies (Command.eraseBodies l.bodies))[i]? = some m.statement := by
    intro i m hm
    obtain ⟨hindex, hstatement, -⟩ := Statement.getElem?_of_map_command hcommands hm
    exact ⟨hindex, hstatement⟩
  constructor
  · refine List.ext_getElem (by rw [List.length_map, hlength]) fun i hi hi' => ?_
    rw [List.length_map] at hi
    obtain ⟨-, hstatement⟩ := hat i _ (List.getElem?_eq_getElem hi)
    rw [List.getElem_map, ← Option.some_inj, ← hstatement, List.getElem?_eq_getElem hi']
  · refine List.ext_getElem (by rw [List.length_map, List.length_range']) fun i hi _ => ?_
    rw [List.length_map] at hi
    obtain ⟨hindex, -⟩ := hat i _ (List.getElem?_eq_getElem hi)
    rw [List.getElem_map, List.getElem_range', hindex]
    omega

namespace Subgoal

variable {c d : Subgoal} {i : Nat} {path : List Nat} {loops : List Loop}

/-- A subgoal has the commands that its premise asks for. -/
theorem commands_of_subgoal? {P : List Command → Prop} (hd : p.subgoal? context n = some d)
    (hasks : p.goal.Asks P) : P d.triple.commands := by
  unfold Premise.subgoal? at hd
  split at hd
  · cases hd
  · cases hd
  · next t hgoal =>
    cases hd
    rw [hgoal] at hasks
    exact hasks t rfl
  · next stem t hgoal =>
    cases hd
    rw [hgoal] at hasks
    exact hasks _

/-- No step adds a loop. -/
theorem nestedLoops_of_child (hchild : c.Child specs i d)
    (h : ∀ l ∈ Command.nestedLoops c.triple.commands, l ∈ loops) :
    ∀ l ∈ Command.nestedLoops d.triple.commands, l ∈ loops := by
  have hcomposable := Command.composable_forall_nestedLoops (· ∈ loops)
  obtain ⟨p, n, ⟨ps, -, hps, hp, -⟩, hd⟩ := hchild
  have hmem := List.mem_of_getElem? hp
  rcases cases_of_premises hps hmem with ⟨before, g, after, hcs, -, rfl⟩ |
    ⟨before, l, after, spec, hcs, -, -, rfl⟩
  · rw [hcs] at h
    have hpart := commands_of_subgoal? hd (Choice.asks_of_mem_premises hmem).2
    exact hpart.of_composable hcomposable h
  · rw [hcs] at h
    rcases Loop.asks_of_mem_premises hmem with rfl | ⟨-, -, -, hasks⟩
    · cases hd
    · rcases commands_of_subgoal? hd hasks with hpart | hnil
      · exact hpart.of_composable hcomposable h
      · rw [hnil]
        exact List.forall_mem_nil _

/-- The loops that the rule for loops is used for are those of the program. -/
theorem mem_numberedLoops_of_at {spec : Spec} {program : Program}
    (hpath : (root spec program).At specs path d)
    (hrule : Rule.of d.triple.commands = .loop before l after) :
    l ∈ program.numberedLoops := by
  have hloops : ∀ m ∈ Command.nestedLoops d.triple.commands, m ∈ program.numberedLoops := by
    refine At.invariant (P := fun c => ∀ m ∈ Command.nestedLoops c.triple.commands,
      m ∈ program.numberedLoops) ?_ hpath fun m hm => hm
    exact fun c i d hchild hc => nestedLoops_of_child hchild hc
  have happlies := Rule.applies_of d.triple.commands
  rw [hrule] at happlies
  refine hloops l ?_
  generalize d.triple.commands = cs at happlies
  cases happlies
  rw [Command.nestedLoops_append, Command.nestedLoops_cons, Command.nestedLoop_loop]
  exact List.mem_append_right _ (List.mem_append_left _ List.mem_cons_self)

end Subgoal

/-! ## A single loop -/

/-- The statement is neither a choice nor a loop. -/
def Statement.IsElementary : Statement → Prop
  | .cond .. | .loop .. => False
  | .abort _ | .skip _ | .assign _ => True

namespace Command

variable {cs : List Command}

/-- A command that is elementary without its indices is elementary. -/
theorem isElementary_of_erase {c : Command} (h : c.erase.IsElementary) : c.IsElementary := by
  cases c with
  | cond | loop =>
    rw [erase] at h
    exact h
  | abort | skip | assign | snapshot => trivial

/-- A sequence that is elementary without its indices is elementary. -/
theorem isElementary_of_eraseSeq (h : ∀ a ∈ eraseSeq cs, a.IsElementary) :
    ∀ c ∈ cs, c.IsElementary := by
  induction cs with
  | nil => exact List.forall_mem_nil _
  | cons c cs ih =>
    rw [eraseSeq_cons, List.forall_mem_cons] at h
    exact List.forall_mem_cons.mpr ⟨isElementary_of_erase h.1, ih h.2⟩

/-- Elementary commands have no loops to strip. -/
theorem stripLoops_of_isElementary (h : ∀ c ∈ cs, c.IsElementary) : stripLoops cs = cs := by
  induction cs with
  | nil => rw [stripLoops]
  | cons c cs ih =>
    rw [List.forall_mem_cons] at h
    obtain ⟨hc, hcs⟩ := h
    rw [stripLoops, ih hcs]
    cases c with
    | cond | loop => exact hc.elim
    | abort | skip | assign | snapshot =>
      rw [stripLoop]
      rfl

/-- Bodies of elementary commands have no loops. -/
theorem bodyLoops_of_isElementary {bs : List (List Command)}
    (h : ∀ b ∈ bs, ∀ c ∈ b, c.IsElementary) : bodyLoops bs = [] := by
  rw [List.eq_nil_iff_forall_not_mem]
  intro l hl
  obtain ⟨b, hb, hl⟩ := mem_bodyLoops.mp hl
  have hnil := nestedLoops_stripLoops b
  rw [stripLoops_of_isElementary (h b hb)] at hnil
  rw [hnil] at hl
  cases hl

end Command

/-- An elementary sequence has one obligation. -/
theorem Subgoal.length_of_isElementary {c : Subgoal}
    (hcs : ∀ a ∈ c.triple.commands, a.IsElementary) (h : c.result specs = .ok (os, n')) :
    os.length = 1 := by
  have happlies := Rule.applies_of c.triple.commands
  cases hrule : Rule.of c.triple.commands with
  | empty =>
    rw [Subgoal.result, Triple.obligations_of_empty hrule] at h
    cases h
    rfl
  | elementary =>
    rw [Subgoal.result, Triple.obligations_of_elementary hrule] at h
    obtain ⟨pre, -, h⟩ := exists_of_bind_eq_ok h
    cases h
    rfl
  | choice before g after | loop before l after =>
    -- the choice or the loop would be among the commands
    rw [hrule] at happlies
    generalize c.triple.commands = cs at hcs happlies
    cases happlies
    exact (hcs _ (List.mem_append_right _ List.mem_cons_self)).elim

/-- Premises with one obligation each have as many as they are. -/
theorem Derivation.length_of_sequence {derive : Premise → Nat → Derivation}
    (hderive : ∀ p ∈ ps, ∀ n share m, derive p n = .ok (share, m) → share.length = 1)
    (h : Derivation.sequence derive ps n = .ok (os, n')) : os.length = ps.length := by
  induction ps generalizing n os with
  | nil =>
    cases h
    rfl
  | cons p ps ih =>
    rw [List.forall_mem_cons] at hderive
    obtain ⟨⟨first, n₁⟩, hfirst, h⟩ := exists_of_bind_eq_ok h
    obtain ⟨⟨rest, n₂⟩, hrest, h⟩ := exists_of_bind_eq_ok h
    cases h
    rw [List.length_append, hderive.1 n first n₁ hfirst, ih hderive.2 hrest, List.length_cons]
    omega

/-- The premises for a loop with elementary bodies between elementary sequences have one obligation
each. -/
theorem Loop.length_of_obligations (hbefore : ∀ c ∈ before, c.IsElementary)
    (hafter : ∀ c ∈ after, c.IsElementary) (hbodies : ∀ b ∈ l.bodies, ∀ c ∈ b, c.IsElementary)
    (hp : p ∈ l.premises spec before after q r)
    (h : p.obligations specs context n = .ok (os, n')) : os.length = 1 := by
  have horSkip : ∀ {cs : List Command}, (∀ c ∈ cs, c.IsElementary) →
      ∀ c ∈ Command.orSkip cs l.range, c.IsElementary := by
    intro cs hcs
    unfold Command.orSkip
    split
    · exact List.forall_mem_singleton.mpr trivial
    · exact hcs
  have hbranch : ∀ {guard body i}, ((guard, body), i) ∈ l.branches →
      ∀ c ∈ body, c.IsElementary := by
    intro guard body i hi
    exact hbodies body (List.of_mem_zip (List.fst_mem_of_mem_zipIdx hi)).2
  -- Every premise asks for a fact or for a triple of elementary commands, so each gives one
  -- obligation.
  rcases Subgoal.cases_of_obligations h with ⟨fact, -, rfl, -⟩ | ⟨d, hd, hresult⟩
  · rfl
  · refine Subgoal.length_of_isElementary ?_ hresult
    simp only [Loop.premises, Command.bodyLoops_of_isElementary hbodies, List.flatMap_nil,
      List.append_nil, List.mem_append, List.mem_map, List.mem_cons, List.not_mem_nil,
      or_false] at hp
    rcases hp with ((rfl | ⟨⟨⟨guard, body⟩, i⟩, hi, rfl⟩) | rfl | rfl) |
      ⟨⟨⟨guard, body⟩, i⟩, hi, rfl⟩
    · cases hd
      exact horSkip hbefore
    · cases hd
      exact hbranch hi
    · cases hd
      exact horSkip hafter
    · cases hd
    · cases hd
      refine List.forall_mem_cons.mpr ⟨trivial, ?_⟩
      rw [Command.stripLoops_of_isElementary (hbranch hi)]
      exact hbranch hi

/-- A program that is a single loop with `n` elementary branches has `1 + n + 1 + 1 + n`
obligations. -/
theorem length_of_single_loop {spec : Spec} {program : Program} {guards : List Predicate}
    {bodies : List (List Statement)} {range : TextRange}
    (hprogram : program.statements = [.loop guards bodies range])
    (hbodies : ∀ b ∈ bodies, ∀ a ∈ b, a.IsElementary)
    (h : generate spec program = .ok os) :
    let n := (guards.zip bodies).length
    os.length = 1 + n + 1 + 1 + n := by
  intro n
  obtain ⟨used, hresult⟩ := Subgoal.exists_result_of_generate h
  let l : Loop := ⟨1, guards, Statement.numberBodies 1 bodies, range⟩
  have hcommands : (Subgoal.root spec program).triple.commands = [l.command] := by
    rw [Subgoal.root, hprogram]
    simp only [Statement.numberSeq, Statement.number]
    rfl
  have helementary : ∀ b ∈ l.bodies, ∀ c ∈ b, c.IsElementary := by
    intro b hb
    refine Command.isElementary_of_eraseSeq (hbodies _ ?_)
    rw [← Statement.eraseBodies_numberBodies 1 bodies, Command.eraseBodies_eq_map]
    exact List.mem_map_of_mem hb
  rcases Subgoal.cases_of_result hresult with ⟨o, -, -, hleaf⟩ | ⟨ps, hps, hseq⟩
  · -- a loop is not elementary
    obtain ⟨pre, hpre, -⟩ := hleaf.predicate
    rw [hcommands] at hpre
    cases hpre
  · have hrule : Rule.of (Subgoal.root spec program).triple.commands = .loop [] l [] := by
      rw [hcommands]
      rfl
    rw [Subgoal.premises, hrule] at hps
    simp only [Rule.premises] at hps
    split at hps
    · next loopSpec hloopSpec =>
      cases hps
      have hlength := Derivation.length_of_sequence (fun p hp n share m hshare =>
        Loop.length_of_obligations (List.forall_mem_nil _) (List.forall_mem_nil _) helementary hp
          hshare) hseq
      have hbranches : l.branches.length = n := by
        have hlength : (Statement.numberBodies 1 bodies).length = bodies.length := by
          rw [← Command.length_eraseBodies, Statement.eraseBodies_numberBodies]
        rw [Loop.branches, List.length_zipIdx, List.length_zip, hlength, ← List.length_zip]
      rw [hlength, Loop.premises, Command.bodyLoops_of_isElementary helementary]
      simp only [List.length_append, List.length_cons, List.length_nil, List.length_map,
        List.flatMap_nil, hbranches]
      omega
    · cases hps

/-! ## Obligations of a program -/

/-- Every obligation of a program has a context. Wherever the rule for choices or the rule for loops
is used in the derivation, its obligations are a stretch of those of the program, in blocks for the
steps of the rule; the inner loops of step 6 come in the order of the text. A single loop with `n`
elementary branches has `1 + n + 1 + 1 + n` obligations. -/
theorem obligations_in_order {spec : Spec} {program : Program}
    (h : generate spec program = .ok obs) :
    (∀ o ∈ obs, o.context ≠ []) ∧
    (∀ path c, (Subgoal.root spec program).At spec.loops path c →
      ∃ os n, c.result spec.loops = .ok (os, n) ∧ os <:+: obs ∧
        (∀ before g after, Rule.of c.triple.commands = .choice before g after →
          InBlocks c.context g.steps os) ∧
        ∀ before l after, Rule.of c.triple.commands = .loop before l after →
          InBlocks c.context l.steps os ∧
          program.loop? l.index = some l.statement ∧
          (Command.bodyLoops l.bodies).map Loop.statement =
            Statement.loopListBodies (Command.eraseBodies l.bodies) ∧
          (Command.bodyLoops l.bodies).map Loop.index =
            List.range' (l.index + 1) (Command.bodyLoops l.bodies).length) ∧
    ∀ guards bodies range, program.statements = [.loop guards bodies range] →
      (∀ b ∈ bodies, ∀ a ∈ b, a.IsElementary) →
      let n := (guards.zip bodies).length
      obs.length = 1 + n + 1 + 1 + n := by
  obtain ⟨used, hresult⟩ := Subgoal.exists_result_of_generate h
  refine ⟨fun o ho => ?_, fun path c hpath => ?_, fun guards bodies range hprogram hbodies => ?_⟩
  · obtain ⟨path, c, _, _, -, -, -, horigin⟩ := Subgoal.exists_origin hresult ho
    cases horigin with
    | leaf hleaf => exact hleaf.context_ne_nil
    | fact _ _ _ ho =>
      rw [ho]
      exact List.append_ne_nil_of_right_ne_nil _ (List.cons_ne_nil _ _)
  · obtain ⟨os, n, hos, hinfix, -, -⟩ := hpath.exists_result hresult
    refine ⟨os, n, hos, hinfix, fun before g after hrule => ?_, fun before l after hrule => ?_⟩
    · exact Triple.inBlocks_of_choice hrule hos
    · have hl := Subgoal.mem_numberedLoops_of_at hpath hrule
      exact ⟨Triple.inBlocks_of_loop hrule hos, (Program.loop?_index hl).1,
        Program.bodyLoops_in_order hl⟩
  · exact length_of_single_loop hprogram hbodies h

/-! ### A loop inside a loop -/

/-- The loop `do x > 0 → …; x := x - 1 od`. -/
def drain (x : String) (inside : List Statement) : Statement :=
  .loop [.comp .gt (.name x) (.const 0)]
    [inside ++ [.assign ⟨[.name x], [.int (.minus (.name x) (.const 1))], .zero⟩]] .zero

/-- Nothing is asked but that the given names are bounds of the loops. -/
def drainSpec (xs : List String) : Spec where
  precondition := .const true
  postcondition := .const true
  loops := xs.map fun x => ⟨.const true, .name x⟩

/-- The inner loop alone has the obligations of steps 1 to 5. With the outer loop around it there
are six blocks, the last of them for the body of the inner loop. -/
theorem drain_in_order :
    (∃ obs, generate (drainSpec ["y"]) ⟨[drain "y" []]⟩ = .ok obs ∧ obs.length = 5) ∧
    ∃ obs, generate (drainSpec ["x", "y"]) ⟨[drain "x" [drain "y" []]]⟩ = .ok obs ∧
      (∀ o ∈ obs, o.context ≠ []) ∧
      InBlocks []
        [{ kind := .loop, step := some 1, loop := some 1, range := .zero },
          { kind := .loop, step := some 2, branch := some 1, loop := some 1, range := .zero },
          { kind := .loop, step := some 3, loop := some 1, range := .zero },
          { kind := .loop, step := some 4, loop := some 1, range := .zero },
          { kind := .loop, step := some 5, branch := some 1, loop := some 1, range := .zero },
          { kind := .loop, step := some 6, branch := some 1, loop := some 1,
            nestedLoop := some 2, range := .zero }] obs := by
  constructor
  · have hsome : (generate (drainSpec ["y"]) ⟨[drain "y" []]⟩).toOption.isSome = true := by
      decide +kernel
    obtain ⟨obs, hobs⟩ := Option.isSome_iff_exists.mp hsome
    have hobs := eq_ok_of_toOption hobs
    obtain ⟨-, -, hlength⟩ := obligations_in_order hobs
    refine ⟨obs, hobs, hlength _ _ _ rfl ?_⟩
    exact List.forall_mem_singleton.mpr (List.forall_mem_singleton.mpr trivial)
  · have hsome : (generate (drainSpec ["x", "y"])
        ⟨[drain "x" [drain "y" []]]⟩).toOption.isSome = true := by
      decide +kernel
    obtain ⟨obs, hobs⟩ := Option.isSome_iff_exists.mp hsome
    have hobs := eq_ok_of_toOption hobs
    obtain ⟨hcontext, hblocks, -⟩ := obligations_in_order hobs
    obtain ⟨os, n, hos, -, -, hloop⟩ := hblocks [] _ (.here _)
    obtain ⟨used, hresult⟩ := Subgoal.exists_result_of_generate hobs
    obtain ⟨rfl, -⟩ : os = obs ∧ n = used := by simpa using hos.symm.trans hresult
    exact ⟨os, hobs, hcontext, (hloop _ _ _ rfl).1⟩

end GuardedCommand
