import GuardedCommand.Proofs.NormalForm
import GuardedCommand.Proofs.ObligationOrder
import GuardedCommand.Proofs.Shorthands
import GuardedCommand.Task.Prepare

/-! # Why there are no obligations

The derivation of obligations comes to an end for every program, whatever its guards and bodies. If
it gives no obligations, an assignment is to blame, or there are not as many loops as loop
specifications. The other errors cannot occur: no rule meets a loop without a specification or a
choice in front of which something is not elementary.

* `FailsOnly`: a computation whose errors all have a property.
* `Program.countLoops_of_expansion`, `Program.countLoops_of_normalize`: the number of loops is kept.
* `WpError.IsElementary`: the errors of elementary commands.
* `Subgoal.wellFounded_child`, `Subgoal.At.length_add_weight_le`: every step down the tree of a
  derivation takes a choice or a loop apart, so the tree is no deeper than their number.
* `Subgoal.IsStripped`, `Subgoal.At.nestedLoops_of_isStripped`: a copy that was made without loops
  stays without loops.
* `Subgoal.Fails`, `Subgoal.exists_fails`: every error comes from a place in the tree.
* `generate_total`: which errors a program and a task can end with.
-/

namespace GuardedCommand

/-! ## Computations that may fail -/

/-- All errors of a computation satisfy `P`. -/
def FailsOnly {ε α : Type} (P : ε → Prop) (x : Except ε α) : Prop :=
  ∀ e, x = .error e → P e

namespace FailsOnly

variable {ε ε' α β : Type} {P : ε → Prop} {x : Except ε α} {f : α → Except ε β}

/-- A result is no error. -/
theorem ok (a : α) : FailsOnly P (.ok a : Except ε α) := by
  intro e h
  cases h

/-- An error with the property. -/
theorem error {e : ε} (h : P e) : FailsOnly P (.error e : Except ε α) := by
  intro e' he'
  cases he'
  exact h

/-- A step and what comes after it have errors with the property only. -/
theorem bind (hx : FailsOnly P x) (hf : ∀ a, x = .ok a → FailsOnly P (f a)) :
    FailsOnly P (x >>= f) := by
  cases hcases : x with
  | error e => exact error (hx e hcases)
  | ok a => exact hf a hcases

/-- A function of the result adds no errors. -/
theorem map {g : α → β} (hx : FailsOnly P x) : FailsOnly P (g <$> x) := by
  cases hcases : x with
  | error e => exact error (hx e hcases)
  | ok a => exact ok (g a)

/-- Errors are renamed to errors with another property. -/
theorem mapError {Q : ε' → Prop} {g : ε → ε'} (hx : FailsOnly P x) (hg : ∀ e, P e → Q (g e)) :
    FailsOnly Q (x.mapError g) := by
  cases hcases : x with
  | error e => exact error (hg e (hx e hcases))
  | ok a => exact ok a

/-- Where all errors are renamed to admissible ones, it does not matter which they are. -/
theorem mapError_of_forall {Q : ε' → Prop} {g : ε → ε'} (hg : ∀ e, Q (g e)) :
    FailsOnly Q (x.mapError g) :=
  mapError (P := fun _ => True) (fun _ _ => trivial) fun e _ => hg e

/-- An error without the property does not occur. -/
theorem ne_error {e : ε} (hx : FailsOnly P x) (he : ¬ P e) : x ≠ .error e :=
  fun h => he (hx e h)

end FailsOnly

/-- A step fails itself, or succeeds and fails later. -/
theorem cases_of_bind_eq_error {ε α β : Type} {x : Except ε α} {f : α → Except ε β} {e : ε}
    (h : x >>= f = .error e) : x = .error e ∨ ∃ a, x = .ok a ∧ f a = .error e := by
  cases x with
  | error e' =>
    cases h
    exact .inl rfl
  | ok a => exact .inr ⟨a, rfl, h⟩

/-! ## The number of loops -/

namespace Shorthands

variable {table : Shorthands}

mutual

/-- Expansion neither adds nor removes loops of a statement. -/
theorem loops_of_statement : ∀ (a : Statement) {a' : Statement}, table.statement a = .ok a' →
    a'.loops = a.loops
  | .abort r, a', h | .skip r, a', h => by
    simp only [statement] at h
    cases h
    rfl
  | .assign a, a', h => by
    simp only [statement] at h
    obtain ⟨b, -, h⟩ := exists_of_bind_eq_ok h
    cases h
    rfl
  | .cond guards bodies r, a', h => by
    simp only [statement] at h
    obtain ⟨gs, -, h⟩ := exists_of_bind_eq_ok h
    obtain ⟨bs, hbs, h⟩ := exists_of_bind_eq_ok h
    cases h
    rw [Statement.loops, Statement.loops, bodyLoops_of_bodies bodies hbs]
  | .loop guards bodies r, a', h => by
    simp only [statement] at h
    obtain ⟨gs, -, h⟩ := exists_of_bind_eq_ok h
    obtain ⟨bs, hbs, h⟩ := exists_of_bind_eq_ok h
    cases h
    rw [Statement.loops, Statement.loops, bodyLoops_of_bodies bodies hbs]

/-- Expansion neither adds nor removes loops of a sequence. -/
theorem countLoops_of_statements : ∀ (ss : List Statement) {ss' : List Statement},
    table.statements ss = .ok ss' → Statement.countLoops ss' = Statement.countLoops ss
  | [], ss', h => by
    simp only [statements] at h
    cases h
    rfl
  | a :: ss, ss', h => by
    simp only [statements] at h
    obtain ⟨b, hb, h⟩ := exists_of_bind_eq_ok h
    obtain ⟨bs, hbs, h⟩ := exists_of_bind_eq_ok h
    cases h
    rw [Statement.countLoops, Statement.countLoops, loops_of_statement a hb,
      countLoops_of_statements ss hbs]

/-- Expansion neither adds nor removes loops of bodies. -/
theorem bodyLoops_of_bodies : ∀ (bs : List (List Statement)) {bs' : List (List Statement)},
    table.bodies bs = .ok bs' → Statement.bodyLoops bs' = Statement.bodyLoops bs
  | [], bs', h => by
    simp only [bodies] at h
    cases h
    rfl
  | b :: bs, bs', h => by
    simp only [bodies] at h
    obtain ⟨c, hc, h⟩ := exists_of_bind_eq_ok h
    obtain ⟨cs, hcs, h⟩ := exists_of_bind_eq_ok h
    cases h
    rw [Statement.bodyLoops, Statement.bodyLoops, countLoops_of_statements b hc,
      bodyLoops_of_bodies bs hcs]

end

/-- A specification has as many loops after expansion as before. -/
theorem length_loops_of_spec {c d : Spec} (h : table.spec c = .ok d) :
    d.loops.length = c.loops.length := by
  obtain ⟨pre, -, h⟩ := exists_of_bind_eq_ok h
  obtain ⟨post, -, h⟩ := exists_of_bind_eq_ok h
  obtain ⟨loops, hloops, h⟩ := exists_of_bind_eq_ok h
  cases h
  exact (forall₂_of_mapM_eq_ok hloops).length_eq.symm

end Shorthands

namespace Program

variable {p q : Program}

/-- A program has as many loops after expansion as before. -/
theorem countLoops_of_expansion {table : Shorthands} (h : table.program p = .ok q) :
    q.countLoops = p.countLoops := by
  obtain ⟨ss, hss, h⟩ := exists_of_bind_eq_ok h
  cases h
  exact Shorthands.countLoops_of_statements p.statements hss

/-- A program has as many loops in normal form as before. -/
theorem countLoops_of_normalize (h : p.normalize = .ok q) : q.countLoops = p.countLoops := by
  obtain ⟨ss, hss, h⟩ := exists_of_bind_eq_ok h
  cases h
  -- the normal form differs in its assignments only
  have hchange := (Statement.of_normalizeSeq p.statements hss).1
  show Statement.countLoops ss = Statement.countLoops p.statements
  rw [← hchange, Statement.countLoops_changeSeq]

/-- All loops of a program are found when they are numbered. -/
theorem length_numberedLoops (p : Program) : p.numberedLoops.length = p.countLoops :=
  Statement.length_nestedLoops_numberSeq 0 p.statements

/-- The number of a loop is at most the number of loops. -/
theorem index_sub_one_lt {l : Loop} (h : l ∈ p.numberedLoops) : l.index - 1 < p.countLoops := by
  have hloop := (loop?_index h).1
  cases hindex : l.index with
  | zero =>
    -- loops are numbered from one
    rw [hindex] at hloop
    cases hloop
  | succ k =>
    rw [hindex] at hloop
    obtain ⟨hk, -⟩ := List.getElem?_eq_some_iff.mp hloop
    rw [Statement.length_loopListSeq] at hk
    exact hk

/-- The loops inside a loop of a program are loops of the program, too. -/
theorem mem_numberedLoops_of_mem_cons {l m : Loop} (hl : l ∈ p.numberedLoops)
    (hm : m ∈ l :: Command.bodyLoops l.bodies) : m ∈ p.numberedLoops := by
  rcases List.mem_cons.mp hm with rfl | hm
  · exact hl
  · obtain ⟨b, hb, hmb⟩ := Command.mem_bodyLoops.mp hm
    exact Command.mem_nestedLoops_of_mem_body hl hb hmb

end Program

/-! ## Errors of assignments -/

/-- The fault is one of an assignment, and not one of loops. -/
def SpecFault.IsAssignment : SpecFault → Prop
  | .targetCount .. | .repeatedTarget _ | .storeTarget _ | .wholeAndElement _ | .notAMap _ => True
  | .loopCount .. | .unspecifiedLoop _ => False

namespace Target

/-- Writing a target fails for a reason that lies in the assignment. -/
theorem failsOnly_write (root : String) (selectors : List IntExpr) (value : Expr)
    (ts : List Target) : FailsOnly SpecFault.IsAssignment (write root selectors value ts) := by
  induction ts with
  | nil => exact .ok _
  | cons t ts ih =>
    unfold write
    by_cases hname : t.name = root
    · rw [if_pos hname]
      by_cases hwhole : (selectors.isEmpty || t.whole) = true
      · rw [if_pos hwhole]
        exact .error trivial
      · rw [if_neg hwhole]
        split
        · exact .error trivial
        · exact .ok _
    · rw [if_neg hname]
      exact ih.bind fun _ _ => .ok _

/-- Adding a target fails for a reason that lies in the assignment. -/
theorem failsOnly_add (ts : List Target) (v : Variable) (value : Expr) :
    FailsOnly SpecFault.IsAssignment (add ts v value) := by
  unfold add
  split
  · exact .error trivial
  · exact failsOnly_write _ _ _ _

/-- Collecting targets fails for a reason that lies in the assignment. -/
theorem failsOnly_collect (writes : List (Variable × Expr)) (ts : List Target) :
    FailsOnly SpecFault.IsAssignment (collect writes ts) := by
  induction writes generalizing ts with
  | nil => exact .ok _
  | cons w writes ih => exact (failsOnly_add ts w.1 w.2).bind fun us _ => ih us

end Target

/-- An assignment without a normal form is at fault itself. -/
theorem Assign.failsOnly_normalize (a : Assign) :
    FailsOnly (fun e => e.fault.IsAssignment) a.normalize := by
  have htargets : FailsOnly SpecFault.IsAssignment a.targets := by
    unfold Assign.targets
    split
    · exact .error trivial
    · split
      · exact .error trivial
      · exact Target.failsOnly_collect _ _
  unfold Assign.normalize
  split
  · next fault hfault => exact .error (htargets fault hfault)
  · exact .ok _

namespace Statement

mutual

/-- A statement without a normal form has an assignment at fault. -/
theorem failsOnly_normalize : ∀ a : Statement, FailsOnly (fun e => e.fault.IsAssignment) a.normalize
  | .abort _ | .skip _ => by
    rw [normalize]
    exact .ok _
  | .assign a => by
    rw [normalize]
    exact a.failsOnly_normalize.bind fun _ _ => .ok _
  | .cond _ bodies _ | .loop _ bodies _ => by
    rw [normalize]
    exact (failsOnly_normalizeBodies bodies).bind fun _ _ => .ok _

/-- A sequence without a normal form has an assignment at fault. -/
theorem failsOnly_normalizeSeq : ∀ ss : List Statement,
    FailsOnly (fun e => e.fault.IsAssignment) (normalizeSeq ss)
  | [] => by
    rw [normalizeSeq]
    exact .ok _
  | a :: ss => by
    rw [normalizeSeq]
    exact a.failsOnly_normalize.bind fun _ _ =>
      (failsOnly_normalizeSeq ss).bind fun _ _ => .ok _

/-- Bodies without a normal form have an assignment at fault. -/
theorem failsOnly_normalizeBodies : ∀ bs : List (List Statement),
    FailsOnly (fun e => e.fault.IsAssignment) (normalizeBodies bs)
  | [] => by
    rw [normalizeBodies]
    exact .ok _
  | b :: bs => by
    rw [normalizeBodies]
    exact (failsOnly_normalizeSeq b).bind fun _ _ =>
      (failsOnly_normalizeBodies bs).bind fun _ _ => .ok _

end

end Statement

/-- The error is one that elementary commands can have: an assignment is at fault, or a value is not
of the kind that its place asks for. -/
def WpError.IsElementary : WpError → Prop
  | .spec e => e.fault.IsAssignment
  | .subst _ => True
  | .compound => False

/-- The precondition of an assignment fails with an error of elementary commands. -/
theorem Assign.failsOnly_wp (a : Assign) (post : Predicate) :
    FailsOnly WpError.IsElementary (a.wp post) := by
  unfold Assign.wp
  have hnormalize : FailsOnly WpError.IsElementary (a.normalize.mapError .spec) :=
    a.failsOnly_normalize.mapError fun _ h => h
  refine hnormalize.bind fun b _ => ?_
  have hsubst : ∀ {α : Type} (x : Except SubstError α),
      FailsOnly WpError.IsElementary (x.mapError .subst) := fun _ =>
    .mapError_of_forall fun _ => trivial
  exact (hsubst _).bind fun σ _ => hsubst _

/-- Elementary commands without a weakest precondition have an assignment at fault. -/
theorem Command.failsOnly_wpSeq {cs : List Command} (hcs : ∀ c ∈ cs, c.IsElementary)
    (post : Predicate) : FailsOnly WpError.IsElementary (wpSeq post cs) := by
  induction cs with
  | nil => exact .ok _
  | cons c cs ih =>
    obtain ⟨hc, hcs⟩ := List.forall_mem_cons.mp hcs
    refine (ih hcs).bind fun between _ => ?_
    cases c with
    | abort r | skip r => exact .ok _
    | assign a => exact a.failsOnly_wp between
    | snapshot x t r => exact .mapError_of_forall fun _ => trivial
    | cond | loop => exact hc.elim

/-- A `skip` in the place of an empty sequence is elementary. -/
theorem Command.isElementary_orSkip {cs : List Command} (h : ∀ c ∈ cs, c.IsElementary)
    (r : TextRange) : ∀ c ∈ orSkip cs r, c.IsElementary := by
  unfold orSkip
  split
  · exact List.forall_mem_singleton.mpr trivial
  · exact h

/-! ## The depth of a derivation -/

namespace Subgoal

variable {specs : List LoopSpec} {c d : Subgoal} {i : Nat} {path : List Nat}

/-- A step down the tree takes a choice or a loop apart. -/
theorem weight_lt_of_child (h : c.Child specs i d) : d.triple.weight < c.triple.weight := by
  obtain ⟨p, n, ⟨ps, -, hps, hp, -⟩, hd⟩ := h
  exact weight_lt_of_subgoal? hps (List.mem_of_getElem? hp) hd

/-- Subgoals have no subgoals without end. -/
theorem wellFounded_child (specs : List LoopSpec) :
    WellFounded fun d c : Subgoal => ∃ i, c.Child specs i d := by
  refine Subrelation.wf ?_ (measure fun c : Subgoal => c.triple.weight).wf
  rintro d c ⟨i, hchild⟩
  exact weight_lt_of_child hchild

/-- The choices and loops that are left, together with the steps to get there, are no more than
those at the start. -/
theorem At.length_add_weight_le (h : c.At specs path d) :
    path.length + d.triple.weight ≤ c.triple.weight := by
  induction h with
  | here c => exact Nat.le_of_eq (Nat.zero_add _)
  | step hchild _ ih =>
    have hlt := weight_lt_of_child hchild
    rw [List.length_cons]
    omega

end Subgoal

/-! ## Copies without loops -/

/-- Steps 5 and 6 of the rule for loops are about commands from which all loops were removed. -/
theorem Loop.asks_of_step {l : Loop} {spec : LoopSpec} {before after : List Command}
    {q r : Predicate} {p : Premise} (hp : p ∈ l.premises spec before after q r)
    (hstep : p.frame.step = some 5 ∨ p.frame.step = some 6) :
    p.goal.Asks fun cs => Command.nestedLoops cs = [] := by
  simp only [Loop.premises, List.mem_append, List.mem_map, List.mem_flatMap, List.mem_cons,
    List.not_mem_nil, or_false] at hp
  rcases hp with (((rfl | ⟨_, -, rfl⟩) | rfl | rfl) | ⟨⟨⟨guard, body⟩, i⟩, -, rfl⟩) |
    ⟨m, -, ⟨body, j⟩, -, rfl⟩
  -- the first four are the other steps
  · simp [Loop.entry, Loop.frame] at hstep
  · simp [Loop.preservation, Loop.frame] at hstep
  · simp [Loop.exit, Loop.frame] at hstep
  · simp [Loop.positivity, Loop.frame] at hstep
  · intro x
    rw [Command.nestedLoops_cons, Command.nestedLoops_stripLoops]
    rfl
  · intro x
    exact Command.nestedLoops_stripLoops body

namespace Subgoal

variable {specs : List LoopSpec} {c d : Subgoal} {i : Nat} {path : List Nat} {e : WpError}

/-- The subgoal is about a copy of commands without their loops, or comes from such a copy. -/
def IsStripped (d : Subgoal) : Prop :=
  ∃ f ∈ d.context, f.step = some 5 ∨ f.step = some 6

/-- A step either makes a copy without loops, or it adds none to a copy. -/
theorem nestedLoops_of_isStripped_child (hchild : c.Child specs i d)
    (hc : c.IsStripped → Command.nestedLoops c.triple.commands = []) (hd : d.IsStripped) :
    Command.nestedLoops d.triple.commands = [] := by
  have hkeep : c.IsStripped → Command.nestedLoops d.triple.commands = [] := by
    intro hstripped
    refine List.eq_nil_iff_forall_not_mem.mpr ?_
    have hnone : ∀ l ∈ Command.nestedLoops c.triple.commands, l ∈ [] := by
      rw [hc hstripped]
      exact List.forall_mem_nil _
    intro l hl
    exact List.not_mem_nil (nestedLoops_of_child hchild hnone l hl)
  obtain ⟨p, n, ⟨ps, -, hps, hp, -⟩, hsub⟩ := hchild
  obtain ⟨f, hf, hstep⟩ := hd
  rw [context_of_subgoal? hsub, List.mem_append, List.mem_singleton] at hf
  rcases hf with hf | rfl
  · exact hkeep ⟨f, hf, hstep⟩
  · have hmem := List.mem_of_getElem? hp
    rcases cases_of_premises hps hmem with ⟨before, g, after, -, -, rfl⟩ |
      ⟨before, l, after, spec, -, -, -, rfl⟩
    · -- the rule for choices has the steps 1 and 2 only
      simp only [Choice.premises, List.mem_cons, List.mem_map] at hmem
      rcases hmem with rfl | ⟨⟨⟨guard, body⟩, i⟩, -, rfl⟩ <;> simp at hstep
    · exact commands_of_subgoal? hsub (Loop.asks_of_step hmem hstep)

/-- A subgoal that comes from a copy without loops has no loops. -/
theorem At.nestedLoops_of_isStripped {spec : Spec} {program : Program}
    (hpath : (root spec program).At specs path d) (hd : d.IsStripped) :
    Command.nestedLoops d.triple.commands = [] := by
  refine At.invariant (P := fun c => c.IsStripped → Command.nestedLoops c.triple.commands = [])
    (fun _ _ _ => nestedLoops_of_isStripped_child) hpath ?_ hd
  -- there is no step yet at the root
  rintro ⟨f, hf, -⟩
  cases hf

/-! ## Where errors come from -/

/-- The subgoal `c` itself is the reason for an error. -/
inductive Fails (specs : List LoopSpec) (c : Subgoal) (e : WpError) : Prop
  /-- A sequence of elementary commands has no weakest precondition. -/
  | leaf (hrule : Rule.of c.triple.commands = .elementary)
    (h : Command.wpSeq c.triple.post c.triple.commands = .error e)
  /-- It cannot be said when a branch of a choice is reached. -/
  | branch {before after : List Command} {g : Choice} {guard : Predicate}
    (hrule : Rule.of c.triple.commands = .choice before g after)
    (h : Command.wpSeq guard (Command.orSkip before g.range) = .error e)
  /-- A loop has no specification. -/
  | unspecified {before after : List Command} {l : Loop}
    (hrule : Rule.of c.triple.commands = .loop before l after)
    (hspec : specs[l.index - 1]? = none) (h : e = .spec ⟨.unspecifiedLoop l.index, l.range⟩)

end Subgoal

/-- The first derivation of a sequence that fails comes after derivations that do not. -/
theorem Derivation.exists_of_sequence_eq_error {derive : Premise → Nat → Derivation}
    {ps : List Premise} {n : Nat} {e : WpError} (h : sequence derive ps n = .error e) :
    ∃ (i : Nat) (p : Premise) (before : List Obligation) (n₁ : Nat), ps[i]? = some p ∧
      sequence derive (ps.take i) n = .ok (before, n₁) ∧ derive p n₁ = .error e := by
  induction ps generalizing n with
  | nil => cases h
  | cons p ps ih =>
    rw [sequence] at h
    rcases cases_of_bind_eq_error h with hfirst | ⟨⟨first, n₁⟩, hfirst, h⟩
    · exact ⟨0, p, [], n, rfl, rfl, hfirst⟩
    · rcases cases_of_bind_eq_error h with hrest | ⟨⟨rest, n₂⟩, -, h⟩
      · -- the failing derivation has one more before it than it has in the rest
        obtain ⟨i, q, before, m, hq, hbefore, hfails⟩ := ih hrest
        refine ⟨i + 1, q, first ++ before, m, hq, ?_, hfails⟩
        rw [List.take_succ_cons, sequence, hfirst]
        simp only [hbefore, bind, Except.bind]
      · cases h

/-- A choice has no triple for a branch only if it cannot be said when the branch is reached. -/
theorem Choice.exists_of_goal_eq_error {g : Choice} {before after : List Command} {q r : Predicate}
    {p : Premise} {e : WpError} (hp : p ∈ g.premises before after q r)
    (hgoal : p.goal = .triple (.error e)) :
    ∃ guard, Command.wpSeq guard (Command.orSkip before g.range) = .error e := by
  simp only [Choice.premises, List.mem_cons, List.mem_map] at hp
  rcases hp with rfl | ⟨⟨⟨guard, body⟩, i⟩, -, rfl⟩
  · cases hgoal
  · rcases cases_of_bind_eq_error (Goal.triple.inj hgoal) with hguard | ⟨reachable, -, h⟩
    · exact ⟨guard, hguard⟩
    · cases h

/-- A loop with a specification has a triple for each of its premises. -/
theorem Loop.goal_ne_error {l : Loop} {spec : LoopSpec} {before after : List Command}
    {q r : Predicate} {p : Premise} {e : WpError} (hp : p ∈ l.premises spec before after q r) :
    p.goal ≠ .triple (.error e) := by
  simp only [Loop.premises, List.mem_append, List.mem_map, List.mem_flatMap, List.mem_cons,
    List.not_mem_nil, or_false] at hp
  intro hgoal
  rcases hp with (((rfl | ⟨_, _, rfl⟩) | rfl | rfl) | ⟨_, _, rfl⟩) | ⟨_, _, _, _, rfl⟩ <;>
    cases hgoal

namespace Subgoal

variable {specs : List LoopSpec} {c d : Subgoal} {i n : Nat} {path : List Nat} {e : WpError}
  {p : Premise} {ps : List Premise}

/-- A premise fails because it has no triple, or because its subgoal fails. -/
theorem cases_of_obligations_eq_error {context : List Frame}
    (h : p.obligations specs context n = .error e) :
    p.goal = .triple (.error e) ∨
      ∃ d, p.subgoal? context n = some d ∧ d.result specs = .error e := by
  unfold Premise.obligations at h
  split at h
  · cases h
  · next e' hgoal =>
    cases h
    exact .inl hgoal
  · next t hgoal =>
    refine .inr ⟨⟨t, context ++ [p.frame], n⟩, ?_, h⟩
    rw [Premise.subgoal?, hgoal]
  · next stem t hgoal =>
    refine .inr ⟨⟨t (auxiliaryName stem n), context ++ [p.frame], n + 1⟩, ?_, h⟩
    rw [Premise.subgoal?, hgoal]

/-- A subgoal to whose premises the error of a sequence of derivations belongs fails itself, or one
of its subgoals does. -/
theorem cases_of_sequence_eq_error (hps : c.premises specs = .ok ps)
    (h : Derivation.sequence (Premise.obligations specs c.context) ps c.used = .error e) :
    c.Fails specs e ∨ ∃ i d, c.Child specs i d ∧ d.result specs = .error e := by
  obtain ⟨i, p, before, n, hp, hbefore, hfails⟩ := Derivation.exists_of_sequence_eq_error h
  rcases cases_of_obligations_eq_error hfails with hgoal | ⟨d, hd, hresult⟩
  · -- the premise has no triple, which happens to a branch of a choice only
    have hmem := List.mem_of_getElem? hp
    rcases cases_of_premises hps hmem with ⟨before, g, after, -, hrule, rfl⟩ |
      ⟨before, l, after, spec, -, -, -, rfl⟩
    · obtain ⟨guard, hguard⟩ := Choice.exists_of_goal_eq_error hmem hgoal
      exact .inl (.branch hrule hguard)
    · exact absurd hgoal (Loop.goal_ne_error hmem)
  · exact .inr ⟨i, d, ⟨p, n, ⟨ps, before, hps, hp, hbefore⟩, hd⟩, hresult⟩

/-- A subgoal without obligations fails itself, or one of its subgoals does. -/
theorem cases_of_result_eq_error (h : c.result specs = .error e) :
    c.Fails specs e ∨ ∃ i d, c.Child specs i d ∧ d.result specs = .error e := by
  cases hrule : Rule.of c.triple.commands with
  | empty =>
    rw [result, Triple.obligations_of_empty hrule] at h
    cases h
  | elementary =>
    rw [result, Triple.obligations_of_elementary hrule] at h
    rcases cases_of_bind_eq_error h with hwp | ⟨pre, -, h⟩
    · exact .inl (.leaf hrule hwp)
    · cases h
  | choice before g after =>
    rw [result, Triple.obligations_of_premises (by simp [hrule]) (by simp [hrule])] at h
    rcases cases_of_bind_eq_error h with hps | ⟨ps, hps, hseq⟩
    · rw [hrule] at hps
      cases hps
    · exact cases_of_sequence_eq_error hps hseq
  | loop before l after =>
    rw [result, Triple.obligations_of_premises (by simp [hrule]) (by simp [hrule])] at h
    rcases cases_of_bind_eq_error h with hps | ⟨ps, hps, hseq⟩
    · -- a loop has premises if it has a specification
      rw [hrule, Rule.premises] at hps
      split at hps
      · cases hps
      · next hspec =>
        cases hps
        exact .inl (.unspecified hrule hspec rfl)
    · exact cases_of_sequence_eq_error hps hseq

/-- Every error comes from somewhere in the tree. -/
theorem exists_fails (h : c.result specs = .error e) :
    ∃ path d, c.At specs path d ∧ d.Fails specs e := by
  -- from one subgoal that fails to the next, until one has only itself to blame
  induction c using (wellFounded_child specs).induction with
  | _ c ih =>
    rcases cases_of_result_eq_error h with hfails | ⟨i, d, hchild, hresult⟩
    · exact ⟨[], c, .here c, hfails⟩
    · obtain ⟨path, d', hpath, hfails⟩ := ih d ⟨i, hchild⟩ hresult
      exact ⟨i :: path, d', .step hchild hpath, hfails⟩

/-- What the rule for elementary commands treats is elementary. -/
theorem isElementary_of_elementary (hrule : Rule.of c.triple.commands = .elementary) :
    ∀ b ∈ c.triple.commands, b.IsElementary := by
  have happlies := Rule.applies_of c.triple.commands
  rw [hrule] at happlies
  generalize c.triple.commands = cs at happlies
  cases happlies with
  | elementary hcs => exact hcs

/-- The rule for choices treats a choice, and what stands before it is elementary. -/
theorem commands_of_choice {before after : List Command} {g : Choice}
    (hrule : Rule.of c.triple.commands = .choice before g after) :
    c.triple.commands = before ++ .cond g.guards g.bodies g.range :: after ∧
      ∀ b ∈ before, b.IsElementary := by
  have happlies := Rule.applies_of c.triple.commands
  rw [hrule] at happlies
  generalize c.triple.commands = cs at happlies
  cases happlies with
  | choice hbefore => exact ⟨rfl, hbefore⟩

/-- A subgoal all of whose loops have a specification fails for the sake of an assignment. -/
theorem Fails.isElementary (h : c.Fails specs e)
    (hspecs : ∀ before l after, Rule.of c.triple.commands = .loop before l after →
      l.index - 1 < specs.length) : e.IsElementary := by
  cases h with
  | leaf hrule h => exact Command.failsOnly_wpSeq (isElementary_of_elementary hrule) _ e h
  | @branch _ _ g _ hrule h =>
    have hbefore := Command.isElementary_orSkip (commands_of_choice hrule).2 g.range
    exact Command.failsOnly_wpSeq hbefore _ e h
  | unspecified hrule hspec _ =>
    have hlt := hspecs _ _ _ hrule
    exact absurd hlt (Nat.not_lt.mpr (List.getElem?_eq_none_iff.mp hspec))

end Subgoal

/-! ## Errors of programs and tasks -/

/-- A program with too few or too many specifications of loops has no obligations. -/
theorem generate_of_countLoops_ne {spec : Spec} {program : Program}
    (h : program.countLoops ≠ spec.loops.length) :
    generate spec program =
      .error (.spec ⟨.loopCount program.countLoops spec.loops.length, program.range⟩) := by
  have hlength : (Command.nestedLoops (Statement.numberSeq 0 program.statements)).length =
      program.countLoops := program.length_numberedLoops
  simp only [generate, hlength]
  rw [if_pos h]

/-- If every loop has a specification, the root of the derivation is what counts. -/
theorem generate_of_countLoops_eq {spec : Spec} {program : Program}
    (h : program.countLoops = spec.loops.length) :
    generate spec program =
      Prod.fst <$> (Subgoal.root spec program).result spec.loops := by
  have hlength : (Command.nestedLoops (Statement.numberSeq 0 program.statements)).length =
      program.countLoops := program.length_numberedLoops
  simp only [generate, hlength]
  rw [if_neg (not_not.mpr h)]
  rfl

/-- A program without obligations has not as many loops as specifications of loops, or an assignment
is at fault. -/
theorem failsOnly_generate (spec : Spec) (program : Program) :
    FailsOnly (fun e => e.IsElementary ∨ program.countLoops ≠ spec.loops.length ∧
      e = .spec ⟨.loopCount program.countLoops spec.loops.length, program.range⟩)
      (generate spec program) := by
  by_cases hcount : program.countLoops = spec.loops.length
  · rw [generate_of_countLoops_eq hcount]
    refine FailsOnly.map fun e he => .inl ?_
    obtain ⟨path, d, hpath, hfails⟩ := Subgoal.exists_fails he
    refine hfails.isElementary fun before l after hrule => ?_
    -- the loop is one of the program, whose number is in range
    have hlt := Program.index_sub_one_lt (Subgoal.mem_numberedLoops_of_at hpath hrule)
    omega
  · rw [generate_of_countLoops_ne hcount]
    exact .error (.inr ⟨hcount, rfl⟩)

/-- The error of a task is not one of its loops. -/
def VerifyError.IsOrdinary : VerifyError → Prop
  | .spec e => e.fault.IsAssignment
  | .subst _ | .lower _ | .shorthand _ | .prover _ => True
  | .compound => False

/-- An error of elementary commands is reported as one that can be expected. -/
theorem VerifyError.isOrdinary_ofWp {e : WpError} (h : e.IsElementary) :
    (VerifyError.ofWp e).IsOrdinary := by
  cases e with
  | spec e => exact h
  | subst e => trivial
  | compound => exact h

namespace Task

/-- Where there are as many loops as loop specifications, expansion and normalization leave as many,
and no error is one of loops. -/
theorem failsOnly_obligations (shorthands : List ShorthandDef) {spec : Spec} {program : Program}
    (hcount : program.countLoops = spec.loops.length) :
    FailsOnly VerifyError.IsOrdinary (obligations shorthands spec program) := by
  have hshorthand : ∀ {α : Type} (x : Except ShorthandError α),
      FailsOnly VerifyError.IsOrdinary (x.mapError .shorthand) := fun _ =>
    .mapError_of_forall fun _ => trivial
  unfold obligations
  refine (hshorthand _).bind fun table _ => ?_
  refine (hshorthand _).bind fun spec' hspec => ?_
  refine (hshorthand _).bind fun expanded hexpanded => ?_
  have hnormalize : FailsOnly VerifyError.IsOrdinary (expanded.normalize.mapError .spec) :=
    ((Statement.failsOnly_normalizeSeq expanded.statements).bind fun _ _ => .ok _).mapError
      fun _ h => h
  refine hnormalize.bind fun normal hnormal => ?_
  have hloops : normal.countLoops = spec'.loops.length := by
    rw [Program.countLoops_of_normalize (eq_ok_of_mapError_eq_ok hnormal),
      Program.countLoops_of_expansion (eq_ok_of_mapError_eq_ok hexpanded),
      Shorthands.length_loops_of_spec (eq_ok_of_mapError_eq_ok hspec), hcount]
  refine (failsOnly_generate spec' normal).mapError fun e he => ?_
  rcases he with he | ⟨hne, -⟩
  · exact VerifyError.isOrdinary_ofWp he
  · exact absurd hloops hne

/-- Preparing a task fails only in ways that can be expected. -/
theorem failsOnly_prepare (registry : Registry) (t : Task) :
    FailsOnly VerifyError.IsOrdinary (t.prepare registry) := by
  have hlower : ∀ {α : Type} (x : Except LowerError α),
      FailsOnly VerifyError.IsOrdinary (x.mapError .lower) := fun _ =>
    .mapError_of_forall fun _ => trivial
  unfold prepare
  split
  · exact .ok _
  · next spec program _ =>
    by_cases hcount : program.countLoops = spec.loops.length
    · simp only [if_pos hcount]
      refine (failsOnly_obligations t.shorthands hcount).bind fun os _ => ?_
      have hbatch : FailsOnly VerifyError.IsOrdinary (batch registry t.axioms os) := by
        unfold batch
        exact (hlower _).bind fun _ _ => (hlower _).bind fun _ _ => .ok _
      exact hbatch.bind fun _ _ => .ok _
    · simp only [if_neg hcount]
      exact .ok _

end Task

/-- Derivations come to an end. The loops they meet, and the loops inside these, are those of the
program, never parts of a copy without loops, and what stands before a choice is elementary.
Therefore a program never has the error of an unspecified loop or of a compound command, and has
that of a wrong number of loops only if the number is wrong. Loops are counted as they are numbered,
and keep their number when shorthands are expanded and assignments are normalized. A task has none
of these errors, since it compares the numbers first. -/
theorem generate_total :
    (∀ specs, WellFounded fun d c : Subgoal => ∃ i, c.Child specs i d) ∧
    (∀ (spec : Spec) (program : Program),
      (∀ path d, (Subgoal.root spec program).At spec.loops path d →
        path.length + d.triple.weight ≤
          Command.weightSeq (Statement.numberSeq 0 program.statements) ∧
        (d.IsStripped → Command.nestedLoops d.triple.commands = []) ∧
        (∀ before g after, Rule.of d.triple.commands = .choice before g after →
          d.triple.commands = before ++ .cond g.guards g.bodies g.range :: after ∧
          ∀ c ∈ before, c.IsElementary) ∧
        ∀ before l after, Rule.of d.triple.commands = .loop before l after →
          ∀ m ∈ l :: Command.bodyLoops l.bodies,
            program.loop? m.index = some m.statement ∧
            (program.countLoops = spec.loops.length → ∃ s, spec.loops[m.index - 1]? = some s)) ∧
      generate spec program ≠ .error .compound ∧
      (∀ i r, generate spec program ≠ .error (.spec ⟨.unspecifiedLoop i, r⟩)) ∧
      ∀ m n r, generate spec program = .error (.spec ⟨.loopCount m n, r⟩) ↔
        program.countLoops ≠ spec.loops.length ∧
          m = program.countLoops ∧ n = spec.loops.length ∧ r = program.range) ∧
    (∀ program : Program,
      (Command.nestedLoops (Statement.numberSeq 0 program.statements)).length =
        program.countLoops ∧
      (∀ (table : Shorthands) q, table.program program = .ok q →
        q.countLoops = program.countLoops) ∧
      ∀ q, program.normalize = .ok q → q.countLoops = program.countLoops) ∧
    ∀ (registry : Registry) (t : Task),
      t.prepare registry ≠ .error .compound ∧
      (∀ i r, t.prepare registry ≠ .error (.spec ⟨.unspecifiedLoop i, r⟩)) ∧
      ∀ m n r, t.prepare registry ≠ .error (.spec ⟨.loopCount m n, r⟩) := by
  refine ⟨Subgoal.wellFounded_child, fun spec program => ⟨?_, ?_, ?_, ?_⟩,
    fun program => ⟨program.length_numberedLoops,
      fun table q h => Program.countLoops_of_expansion h,
      fun q h => Program.countLoops_of_normalize h⟩, fun registry t => ?_⟩
  · intro path d hpath
    refine ⟨hpath.length_add_weight_le, hpath.nestedLoops_of_isStripped,
      fun before g after => Subgoal.commands_of_choice, fun before l after hrule m hm => ?_⟩
    -- Every loop that a rule is used for is one of the numbered loops, so its index is in range.
    have hl := Subgoal.mem_numberedLoops_of_at hpath hrule
    have hm := Program.mem_numberedLoops_of_mem_cons hl hm
    refine ⟨(Program.loop?_index hm).1, fun hcount => ?_⟩
    have hlt := Program.index_sub_one_lt hm
    exact ⟨_, List.getElem?_eq_getElem (hcount ▸ hlt)⟩
  · refine (failsOnly_generate spec program).ne_error ?_
    -- An assignment is at fault or the number of loops is wrong, and this error is neither.
    rintro (h | ⟨-, h⟩) <;> cases h
  · intro i r
    refine (failsOnly_generate spec program).ne_error ?_
    rintro (h | ⟨-, h⟩) <;> cases h
  · intro m n r
    constructor
    · intro h
      rcases failsOnly_generate spec program _ h with h | ⟨hcount, h⟩
      · cases h
      · cases h
        exact ⟨hcount, rfl, rfl, rfl⟩
    · rintro ⟨hcount, rfl, rfl, rfl⟩
      exact generate_of_countLoops_ne hcount
  · have hprepare := Task.failsOnly_prepare registry t
    exact ⟨hprepare.ne_error id, fun i r => hprepare.ne_error id, fun m n r => hprepare.ne_error id⟩

/-! ### A program whose guards and branches do not match -/

/-- The program `x := 1; if b → skip | false fi; do b → do | x := 2 od | x := 0 od`. Its choice has
a guard too many, its outer loop a body, and its inner loop no guard at all. -/
def unmatched (b : Predicate) : Program where
  statements :=
    let set n : Statement := .assign ⟨[.name "x"], [.int (.const n)], .zero⟩
    [set 1, .cond [b, .const false] [[.skip .zero]] .zero,
      .loop [b] [[.loop [] [[set 2]] .zero], [set 0]] .zero]

/-- Nothing is asked of the program, whose loops are bounded by `x`. -/
def unmatchedSpec : Spec where
  precondition := .const true
  postcondition := .const true
  loops := [⟨.const true, .name "x"⟩, ⟨.const true, .name "x"⟩]

/-- With `pos(x)` for `x > 0` as its guard, the program has two loops, and keeps them. Its outer
loop is treated first, then its choice, with an assignment in front. The fifth premise for the outer
loop is about a copy of its body without the inner loop. -/
theorem unmatched_total :
    let b : Predicate := .comp .gt (.name "x") (.const 0)
    let program := unmatched (.call "pos" [.int (.name "x")])
    let root := Subgoal.root unmatchedSpec program
    (∃ d before l after, root.At unmatchedSpec.loops [] d ∧
      Rule.of d.triple.commands = .loop before l after ∧ (Command.bodyLoops l.bodies).length = 1 ∧
      ∀ m ∈ l :: Command.bodyLoops l.bodies, program.loop? m.index = some m.statement ∧
        ∃ s, unmatchedSpec.loops[m.index - 1]? = some s) ∧
    (∃ d before g after, root.At unmatchedSpec.loops [0] d ∧
      Rule.of d.triple.commands = .choice before g after ∧ before ≠ [] ∧
      (∀ c ∈ before, c.IsElementary) ∧ 1 + d.triple.weight ≤ root.triple.weight) ∧
    (∃ d, root.At unmatchedSpec.loops [4] d ∧ d.IsStripped ∧
      Command.nestedLoops d.triple.commands = []) ∧
    Shorthands.program ⟨[⟨"pos", ["x"], .predicate b⟩]⟩ program = .ok (unmatched b) ∧
    (unmatched b).countLoops = program.countLoops ∧
    ∃ q, (unmatched b).normalize = .ok q ∧ q.countLoops = (unmatched b).countLoops := by
  intro b program root
  obtain ⟨-, hprogram, hcount, -⟩ := generate_total
  obtain ⟨hat, -⟩ := hprogram unmatchedSpec program
  refine ⟨?_, ?_, ?_, ?_⟩
  · obtain ⟨-, -, -, hloop⟩ := hat [] _ (.here _)
    refine ⟨_, _, _, _, .here _, rfl, rfl, fun m hm => ?_⟩
    obtain ⟨hindex, hspec⟩ := hloop _ _ _ rfl m hm
    exact ⟨hindex, hspec rfl⟩
  · have hpath : root.At unmatchedSpec.loops [0] _ :=
      .step ⟨_, _, ⟨_, _, rfl, rfl, rfl⟩, rfl⟩ (.here _)
    obtain ⟨hdepth, -, hchoice, -⟩ := hat [0] _ hpath
    exact ⟨_, _, _, _, hpath, rfl, List.cons_ne_nil _ _, (hchoice _ _ _ rfl).2, hdepth⟩
  · let ps := (root.premises unmatchedSpec.loops).toOption.getD []
    have hsome : (Derivation.sequence (Premise.obligations unmatchedSpec.loops [])
        (ps.take 4) 0).toOption.isSome = true := by
      decide +kernel
    obtain ⟨⟨os, n⟩, hos⟩ := Option.isSome_iff_exists.mp hsome
    obtain ⟨d, hpath, f, hcontext, hstep⟩ : ∃ d, root.At unmatchedSpec.loops [4] d ∧
        ∃ f, d.context = [f] ∧ f.step = some 5 :=
      ⟨_, .step ⟨_, n, ⟨ps, os, rfl, rfl, eq_ok_of_toOption hos⟩, rfl⟩ (.here _), _, rfl, rfl⟩
    have hstripped : d.IsStripped := by
      refine ⟨f, ?_, .inl hstep⟩
      rw [hcontext]
      exact List.mem_singleton_self f
    exact ⟨d, hpath, hstripped, (hat [4] d hpath).2.1 hstripped⟩
  · have hexpand : Shorthands.program ⟨[⟨"pos", ["x"], .predicate b⟩]⟩ program =
        .ok (unmatched b) := rfl
    obtain ⟨-, hexpansion, -⟩ := hcount program
    obtain ⟨-, -, hnormal⟩ := hcount (unmatched b)
    exact ⟨hexpand, hexpansion _ _ hexpand, _, rfl, hnormal _ rfl⟩

end GuardedCommand
