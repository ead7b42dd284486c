import GuardedCommand.Proofs.Derivation

/-! # Soundness of the proof obligations

If all proof obligations of a program hold, its executions from the precondition do not fail, and
those that end satisfy the postcondition. The argument follows the derivation of the obligations:
for each rule, correct premises make a correct triple.

* `Triple.Correct`: executions from the precondition of a triple lead to its postcondition.
* `Choice.correct`, `Loop.correct`: the rules for choices and loops.
* `Triple.correct_safe`: triples whose obligations hold are correct, as far as executions end.
* `steps_of_obligations`: the same for programs.
-/

namespace GuardedCommand

/-- If the precondition holds in `s`, executions of the commands from `s` lead to the
postcondition. -/
def Triple.CorrectAt (I : Interpretation) (d : Demand) (s : State) (t : Triple) : Prop :=
  t.pre.Holds I s → Ensures I d (t.post.Holds I) (.running (Command.eraseSeq t.commands) s)

/-- Executions of the commands from the precondition lead to the postcondition. -/
def Triple.Correct (I : Interpretation) (d : Demand) (t : Triple) : Prop :=
  ∀ s, t.CorrectAt I d s

variable {I : Interpretation} {d : Demand} {R : State → Prop} {s : State}
  {before after : List Command} {q r : Predicate}

/-! ## Choices -/

/-- A choice after elementary commands ensures `R` if these lead to some guard, and every branch
whose guard they lead to ensures `R` when they are executed before it. -/
theorem Command.ensures_choice {guards : List Predicate} {bodies : List (List Command)}
    {range : TextRange} (hbefore : ∀ c ∈ before, c.IsElementary)
    (hlen : guards.length ≤ bodies.length) :
    Ensures I d R (.running (eraseSeq (before ++ .cond guards bodies range :: after)) s) ↔
      Ensures I d (Predicate.Holds I (.anyOf guards)) (.running (eraseSeq before) s) ∧
        ∀ guard body, (guard, body) ∈ guards.zip bodies →
          Ensures I d (guard.Holds I) (.running (eraseSeq before) s) →
          Ensures I d R (.running (eraseSeq (before ++ body ++ after)) s) := by
  have happend : ∀ ts, Ensures I d R (.running (eraseSeq before ++ ts) s) ↔
      Ensures I d (fun s' => Ensures I d R (.running ts s')) (.running (eraseSeq before) s) :=
    fun ts => ensures_append
  simp only [eraseSeq_append, eraseSeq_cons, List.append_assoc, happend]
  rcases exists_of_isElementary (I := I) hbefore s with ⟨s', hs'⟩ | hnone
  · -- everything is decided in the state that the elementary commands lead to
    simp only [hs', erase, Predicate.holds_anyOf]
    rw [ensures_cond (by simpa using hlen)]
    refine and_congr_right fun _ =>
      ⟨fun h guard body hmem hguard => ?_, fun h guard b hmem hguard => ?_⟩
    · exact h guard _ (mem_zip_eraseBodies.mpr ⟨body, hmem, rfl⟩) hguard
    · obtain ⟨body, hbody, rfl⟩ := mem_zip_eraseBodies.mp hmem
      exact h guard body hbody hguard
  · exact ⟨fun h => absurd h (hnone d _), fun h => absurd h.1 (hnone d _)⟩

/-- The commands that stand for empty parts around a body do not matter. -/
theorem Command.ensures_orSkip_append {body : List Command} {range : TextRange} :
    Ensures I d R
        (.running (eraseSeq (orSkip before range ++ body ++ orSkip after range)) s) ↔
      Ensures I d R (.running (eraseSeq (before ++ body ++ after)) s) := by
  simp only [eraseSeq_append, ensures_append, ensures_eraseSeq_orSkip]

/-- A choice is correct in a state if its premises are. -/
theorem Choice.correctAt {g : Choice} (hbefore : ∀ c ∈ before, c.IsElementary)
    (hlen : g.guards.length ≤ g.bodies.length)
    (h : g.Follows (Triple.CorrectAt I d s) before after q r) :
    Triple.CorrectAt I d s ⟨q, r, before ++ .cond g.guards g.bodies g.range :: after⟩ := by
  intro hq
  refine (Command.ensures_choice hbefore hlen).mpr ⟨?_, fun guard body hmem hguard => ?_⟩
  · exact (Command.ensures_eraseSeq_orSkip _).mp (h.entry hq)
  · -- what makes the branch reachable is that its guard holds before the choice
    obtain ⟨reachable, hwp, hbranch⟩ := h.branch guard body hmem
    have hreachable : reachable.Holds I s := by
      rwa [Command.holds_wpSeq (d := d) hwp, Command.ensures_eraseSeq_orSkip]
    exact Command.ensures_orSkip_append.mp
      (hbranch ((Predicate.holds_and ..).mpr ⟨hq, hreachable⟩))

/-- The premises for a choice that is correct in a state are correct in it, as far as there are
any. -/
theorem Choice.follows_of_correctAt {g : Choice} (hbefore : ∀ c ∈ before, c.IsElementary)
    (hlen : g.guards.length ≤ g.bodies.length)
    (hwp : ∀ guard body, (guard, body) ∈ g.guards.zip g.bodies →
      ∃ reachable, Command.wpSeq guard (Command.orSkip before g.range) = .ok reachable)
    (h : Triple.CorrectAt I d s ⟨q, r, before ++ .cond g.guards g.bodies g.range :: after⟩) :
    g.Follows (Triple.CorrectAt I d s) before after q r := by
  refine ⟨fun hq => ?_, fun guard body hmem => ?_⟩
  · have hentry := ((Command.ensures_choice hbefore hlen).mp (h hq)).1
    exact (Command.ensures_eraseSeq_orSkip _).mpr hentry
  · obtain ⟨reachable, hreachable⟩ := hwp guard body hmem
    refine ⟨reachable, hreachable, fun hpre => ?_⟩
    obtain ⟨hq, hguard⟩ := (Predicate.holds_and ..).mp hpre
    rw [Command.holds_wpSeq (d := d) hreachable, Command.ensures_eraseSeq_orSkip] at hguard
    exact Command.ensures_orSkip_append.mpr
      (((Command.ensures_choice hbefore hlen).mp (h hq)).2 guard body hmem hguard)

/-- A choice is correct if its premises are. -/
theorem Choice.correct {g : Choice} (hbefore : ∀ c ∈ before, c.IsElementary)
    (hlen : g.guards.length ≤ g.bodies.length)
    (h : g.Follows (Triple.Correct I d) before after q r) :
    Triple.Correct I d ⟨q, r, before ++ .cond g.guards g.bodies g.range :: after⟩ :=
  fun s => Choice.correctAt hbefore hlen (h.mono fun _ ht => ht s)

/-! ## Loops -/

/-- A sequence with a loop in it is correct if the invariant holds before the loop, the loop keeps
it, and it is enough for the rest of the sequence. -/
theorem Loop.correct {l : Loop} {spec : LoopSpec}
    (hentry : Triple.Correct I d ⟨q, spec.invariant, Command.orSkip before l.range⟩)
    (hloop : ∀ s, spec.invariant.Holds I s →
      Ensures I d (fun s' => spec.invariant.Holds I s' ∧ ∀ g ∈ l.guards, ¬ g.Holds I s')
        (.running [.loop l.guards (Command.eraseBodies l.bodies) l.range] s))
    (hexit : Triple.Correct I d
      ⟨spec.invariant.and (.not (.anyOf l.guards)), r, Command.orSkip after l.range⟩) :
    Triple.Correct I d
      ⟨q, r, before ++ .loop l.index l.guards l.bodies l.range :: after⟩ := by
  intro s hq
  simp only [Command.eraseSeq_append]
  rw [ensures_append]
  refine ((Command.ensures_eraseSeq_orSkip _).mp (hentry s hq)).mono fun s₁ hs₁ => ?_
  rw [Command.ensures_eraseSeq_cons]
  refine (hloop s₁ hs₁).mono fun s₂ hs₂ => ?_
  refine (Command.ensures_eraseSeq_orSkip _).mp (hexit s₂ ?_)
  simpa using hs₂

/-- A sequence with a loop in it is correct, as far as executions end, if the premises for the loop
are. -/
theorem Loop.correct_safe {F : Predicate → Prop} {l : Loop} {spec : LoopSpec}
    (hlen : l.guards.length ≤ l.bodies.length)
    (h : l.Follows F (Triple.Correct I .safe) spec before after q r) :
    Triple.Correct I .safe
      ⟨q, r, before ++ .loop l.index l.guards l.bodies l.range :: after⟩ := by
  refine Loop.correct h.entry (fun s hs => ?_) h.exit
  refine ensures_loop_safe (by simpa using hlen) (fun guard b hmem s hs hguard => ?_) hs
  obtain ⟨body, hbody, rfl⟩ := Command.mem_zip_eraseBodies.mp hmem
  exact h.preservation guard body hbody s ((Predicate.holds_and ..).mpr ⟨hs, hguard⟩)

/-! ## Programs -/

/-- An elementary sequence is correct if its obligation holds. -/
theorem Triple.correct_of_wpSeq {cs : List Command} {pre : Predicate}
    (hwp : Command.wpSeq r cs = .ok pre) (h : ∀ s, (q.implies pre).Holds I s) :
    Triple.Correct I d ⟨q, r, cs⟩ := by
  intro s hq
  have hpre : pre.Holds I s := (Predicate.holds_implies ..).mp (h s) hq
  exact (Command.holds_wpSeq hwp).mp hpre

/-- Triples whose obligations hold in all states are correct, as far as executions end. -/
theorem Triple.correct_safe {specs : List LoopSpec} {t : Triple} {context : List Frame} {n n' : Nat}
    {obs : List Obligation} (h : t.obligations specs context n = .ok (obs, n'))
    (hvalid : ∀ o ∈ obs, ∀ s, o.predicate.Holds I s) (hmatched : Command.Matched t.commands) :
    t.Correct I .safe := by
  refine Triple.follows_induction (F := fun p => ∀ s, p.Holds I s) (S := Triple.Correct I .safe)
    Command.composable_matched ?_ ?_ ?_ h hvalid hmatched
  · intro q r cs pre hwp hF
    exact Triple.correct_of_wpSeq hwp hF
  · intro q r before g after _ hbefore hm hfollows
    exact Choice.correct hbefore hm.length_cond hfollows
  · intro q r before l after spec _ hm hfollows
    exact Loop.correct_safe hm.length_loop hfollows

/-- If all proof obligations hold in all states, no execution from the precondition fails, and every
execution from it that ends satisfies the postcondition. -/
theorem steps_of_obligations {spec : Spec} {program : Program} {obligations : List Obligation}
    (hmatched : program.Matched) (hgenerate : generate spec program = .ok obligations)
    (hvalid : ∀ o ∈ obligations, ∀ s, o.predicate.Holds I s) {s : State}
    (hs : spec.precondition.Holds I s) :
    ¬ Steps I (.running program.statements s) .fault ∧
      ∀ s', Steps I (.running program.statements s) (.running [] s') →
        spec.postcondition.Holds I s' := by
  obtain ⟨n, hobs⟩ := exists_of_generate hgenerate
  have hcorrect := Triple.correct_safe hobs hvalid (Command.matched_numberSeq hmatched 0) s hs
  rw [Statement.eraseSeq_numberSeq] at hcorrect
  refine ⟨fun hfault => ?_, fun s' hend => ?_⟩
  · exact not_ensures_fault (hcorrect.steps hfault)
  · exact ensures_nil.mp (hcorrect.steps hend)

/-! ### A program that counts down -/

/-- The program `if x ≥ 0 → skip | x ≤ 0 → x := -x fi; do x > 0 → x := x - 1 od`. -/
def countdown : Program :=
  let x : IntExpr := .name "x"
  { statements := [
      .cond [.comp .ge x (.const 0), .comp .le x (.const 0)]
        [[.skip .zero], [.assign ⟨[.name "x"], [.int (.negate x)], .zero⟩]] .zero,
      .loop [.comp .gt x (.const 0)]
        [[.assign ⟨[.name "x"], [.int (.minus x (.const 1))], .zero⟩]] .zero] }

/-- From any state, `countdown` is to reach `x = 0`. -/
def countdownSpec : Spec where
  precondition := .const true
  postcondition := .comp .eq (.name "x") (.const 0)
  loops := [⟨.comp .ge (.name "x") (.const 0), .name "x"⟩]

/-- The obligations of `countdown`. -/
theorem countdown_obligations :
    let x : IntExpr := .name "x"
    let nonneg : Predicate := .comp .ge x (.const 0)
    let positive : Predicate := .comp .gt x (.const 0)
    let lower : IntExpr := .minus x (.const 1)
    (generate countdownSpec countdown).map (·.map Obligation.predicate) = .ok [
      .implies (.const true) (.anyOf [nonneg, .comp .le x (.const 0)]),
      .implies (.and (.const true) nonneg) nonneg,
      .implies (.and (.const true) (.comp .le x (.const 0))) (.comp .ge (.negate x) (.const 0)),
      .implies (.and nonneg positive) (.comp .ge lower (.const 0)),
      .implies (.and nonneg (.not positive)) (.comp .eq x (.const 0)),
      .implies (.and nonneg positive) positive,
      .implies (.and nonneg positive) (.comp .lt lower x)] := by
  decide +kernel

/-- The predicates of the obligations determine in which states all of them hold. -/
theorem exists_obligations_of_predicates {spec : Spec} {program : Program} {ps : List Predicate}
    (h : (generate spec program).map (·.map Obligation.predicate) = .ok ps) :
    ∃ obligations, generate spec program = .ok obligations ∧
      ∀ s, (∀ o ∈ obligations, o.predicate.Holds I s) ↔ ∀ p ∈ ps, p.Holds I s := by
  cases hgenerate : generate spec program with
  | error e =>
    rw [hgenerate] at h
    cases h
  | ok obligations =>
    rw [hgenerate] at h
    cases h
    exact ⟨obligations, rfl, fun s => by simp⟩

/-- The obligations of `countdown` hold. -/
theorem countdown_valid : ∃ obligations, generate countdownSpec countdown = .ok obligations ∧
    ∀ o ∈ obligations, ∀ s, o.predicate.Holds I s := by
  obtain ⟨obligations, hgenerate, hiff⟩ := exists_obligations_of_predicates countdown_obligations
  refine ⟨obligations, hgenerate, fun o ho s => (hiff s).mpr ?_ o ho⟩
  simp only [List.forall_mem_cons, Predicate.holds_implies, Predicate.holds_and,
    Predicate.holds_anyOf, Predicate.Holds, CompOp.Compares, IntExpr.minus,
    IntExpr.value, ArithOp.apply, Value.toInt_int, List.exists_mem_cons_iff]
  refine ⟨?_, ?_, ?_, ?_, ?_, ?_, ?_, by simp⟩
  · have := le_total 0 ((IntExpr.name "x").value I s).toInt
    tauto
  all_goals omega

/-- In `countdown` every guard has its body. -/
theorem countdown_matched : countdown.Matched := by
  simp [Program.Matched, countdown, Statement.MatchedSeq, Statement.Matched,
    Statement.MatchedBodies]

/-- The interpretation in which called functions are `0` and called relations do not hold. -/
noncomputable def Interpretation.null : Interpretation :=
  .standard (fun _ _ => 0) fun _ _ => False

/-- From `x = -3` no execution of `countdown` fails, and those that end do so with `x = 0`. -/
theorem countdown_steps :
    countdown.Matched ∧
      (∃ obligations, generate countdownSpec countdown = .ok obligations ∧
        ∀ o ∈ obligations, ∀ s, o.predicate.Holds .null s) ∧
      countdownSpec.precondition.Holds .null (fun _ => .int (-3)) ∧
      ¬ Steps .null (.running countdown.statements fun _ => .int (-3)) .fault ∧
      ∀ s', Steps .null (.running countdown.statements fun _ => .int (-3)) (.running [] s') →
        countdownSpec.postcondition.Holds .null s' := by
  obtain ⟨obligations, hgenerate, hvalid⟩ := countdown_valid (I := .null)
  have hpre : countdownSpec.precondition.Holds .null (fun _ => .int (-3)) := by
    simp [countdownSpec, Predicate.Holds]
  exact ⟨countdown_matched, ⟨obligations, hgenerate, hvalid⟩, hpre,
    steps_of_obligations countdown_matched hgenerate hvalid hpre⟩

end GuardedCommand
