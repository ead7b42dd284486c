import GuardedCommand.Proofs.Soundness

/-! # Exactness of the proof obligations of programs without loops

The obligations of a program without loops hold in a state exactly if every execution from that
state, should it satisfy the precondition, ends in the postcondition. Nothing is lost when a choice
is split into its branches, and no more is asked for than executions need.

* `Statement.length_nestedLoops_numberSeq`: numbering finds every loop.
* `Choice.exact_of_covers`: the shares of the premises for a choice hold exactly if it is correct.
* `Triple.exact`, `obligations_hold_iff`: exactness for triples and for programs.
-/

namespace GuardedCommand

mutual

/-- A numbered statement has as many loops as the statement. -/
theorem Statement.length_nestedLoop_number :
    ∀ (n : Nat) (a : Statement), (a.number n).nestedLoop.length = a.loops
  | _, .abort _ | _, .skip _ | _, .assign _ => by
    simp only [Statement.number, Command.nestedLoop, Statement.loops, List.length_nil]
  | n, .cond guards bodies r => by
    simp only [Statement.number, Command.nestedLoop, Statement.loops,
      Statement.length_bodyLoops_numberBodies]
  | n, .loop guards bodies r => by
    simp only [Statement.number, Command.nestedLoop, Statement.loops, List.length_cons,
      Statement.length_bodyLoops_numberBodies]

/-- A numbered sequence has as many loops as the sequence. -/
theorem Statement.length_nestedLoops_numberSeq : ∀ (n : Nat) (ss : List Statement),
    (Command.nestedLoops (Statement.numberSeq n ss)).length = Statement.countLoops ss
  | _, [] => by simp only [Statement.numberSeq, Command.nestedLoops, Statement.countLoops,
      List.length_nil]
  | n, a :: ss => by
    simp only [Statement.numberSeq, Command.nestedLoops, Statement.countLoops, List.length_append,
      Statement.length_nestedLoop_number, Statement.length_nestedLoops_numberSeq]

/-- Numbered bodies have as many loops as the bodies. -/
theorem Statement.length_bodyLoops_numberBodies : ∀ (n : Nat) (bs : List (List Statement)),
    (Command.bodyLoops (Statement.numberBodies n bs)).length = Statement.bodyLoops bs
  | _, [] => by simp only [Statement.numberBodies, Command.bodyLoops, Statement.bodyLoops,
      List.length_nil]
  | n, b :: bs => by
    simp only [Statement.numberBodies, Command.bodyLoops, Statement.bodyLoops, List.length_append,
      Statement.length_nestedLoops_numberSeq, Statement.length_bodyLoops_numberBodies]

end

variable {I : Interpretation} {s : State} {M : Triple → List Obligation → Prop}
  {obs : List Obligation} {before after : List Command} {q r : Predicate}

/-- If there are obligations, every branch has a condition under which it is reached. -/
theorem Choice.exists_reachable_of_covers {g : Choice}
    (h : Covers M (g.premises before after q r) obs) {guard : Predicate} {body : List Command}
    (hmem : (guard, body) ∈ g.guards.zip g.bodies) :
    ∃ reachable, Command.wpSeq guard (Command.orSkip before g.range) = .ok reachable := by
  have htrivial : ∀ p ∈ g.premises before after q r,
      p.goal.Follows (fun _ => True) fun _ => True :=
    Covers.follows (h.mono fun _ _ _ _ => trivial) fun _ _ => trivial
  have hfollows := Choice.follows_iff.mp htrivial
  obtain ⟨reachable, hwp, -⟩ := hfollows.branch guard body hmem
  exact ⟨reachable, hwp⟩

/-- The obligations `os` hold in `s` exactly if `t` is correct there, provided that `t` has no loops
and enough bodies. -/
def Triple.Exact (I : Interpretation) (s : State) (t : Triple) (os : List Obligation) : Prop :=
  Command.nestedLoops t.commands = [] → Command.Matched t.commands →
    ((∀ o ∈ os, o.predicate.Holds I s) ↔ t.CorrectAt I .total s)

/-- The obligations for a choice are exact if those of its premises are. -/
theorem Choice.exact_of_covers {g : Choice} (hbefore : ∀ c ∈ before, c.IsElementary)
    (h : Covers (Triple.Exact I s) (g.premises before after q r) obs) :
    Triple.Exact I s ⟨q, r, before ++ .cond g.guards g.bodies g.range :: after⟩ obs := by
  intro hloops hmatched
  simp only [Command.nestedLoops_append, Command.nestedLoops_cons, Command.nestedLoop_cond,
    List.append_eq_nil_iff] at hloops
  obtain ⟨hlbefore, hlbodies, hlafter⟩ := hloops
  have hlen := hmatched.length_cond
  -- each premise is exact for its share of the obligations
  have hshares : ∀ p ∈ g.premises before after q r, ∀ os, p.goal.Yields (Triple.Exact I s) os →
      ((∀ o ∈ os, o.predicate.Holds I s) ↔
        p.goal.Follows (fun p => p.Holds I s) (Triple.CorrectAt I .total s)) := by
    intro p hp os hyields
    simp only [Choice.premises, List.mem_cons, List.mem_map] at hp
    rcases hp with rfl | ⟨⟨⟨guard, body⟩, i⟩, hi, rfl⟩
    · exact hyields (by simpa using hlbefore) (Command.composable_matched.entry hmatched _)
    · have hmem := List.fst_mem_of_mem_zipIdx hi
      have hbody := (List.of_mem_zip hmem).2
      have hlbody := Command.nestedLoops_eq_nil_of_mem hlbodies hbody
      obtain ⟨reachable, hwp⟩ := Choice.exists_reachable_of_covers h hmem
      simp only [hwp] at hyields ⊢
      exact hyields (by simp [hlbefore, hlbody, hlafter])
        (Command.composable_matched.branch hmatched hbody)
  calc (∀ o ∈ obs, o.predicate.Holds I s)
      ↔ ∀ p ∈ g.premises before after q r,
          p.goal.Follows (fun p => p.Holds I s) (Triple.CorrectAt I .total s) :=
        h.forall_iff (F := fun p => p.Holds I s) hshares
    _ ↔ g.Follows (Triple.CorrectAt I .total s) before after q r := Choice.follows_iff
    _ ↔ Triple.CorrectAt I .total s
          ⟨q, r, before ++ .cond g.guards g.bodies g.range :: after⟩ :=
        ⟨Choice.correctAt hbefore hlen, Choice.follows_of_correctAt hbefore hlen
          fun _ _ hmem => Choice.exists_reachable_of_covers h hmem⟩

/-- The obligations of a triple are exact. -/
theorem Triple.exact {specs : List LoopSpec} {t : Triple} {context : List Frame} {n n' : Nat}
    (h : t.obligations specs context n = .ok (obs, n')) (s : State) : t.Exact I s obs := by
  refine Triple.obligations_induction ?_ ?_ ?_ h
  · intro q r cs pre context hwp _ _
    simp [Triple.CorrectAt, Command.holds_wpSeq (d := .total) hwp]
  · intro q r before g after obs _ hbefore hcovers
    exact Choice.exact_of_covers hbefore hcovers
  · intro q r before l after spec obs _ _ hloops
    simp at hloops

/-- The obligations of a program without loops hold in a state exactly if the precondition, should
it hold there, makes every execution end in the postcondition. -/
theorem obligations_hold_iff {spec : Spec} {program : Program} {obligations : List Obligation}
    (hloops : program.countLoops = 0) (hmatched : program.Matched)
    (hgenerate : generate spec program = .ok obligations) (s : State) :
    (∀ o ∈ obligations, o.predicate.Holds I s) ↔
      (spec.precondition.Holds I s →
        Ensures I .total (spec.postcondition.Holds I) (.running program.statements s)) := by
  obtain ⟨n, hobs⟩ := exists_of_generate hgenerate
  have hnil : Command.nestedLoops (Statement.numberSeq 0 program.statements) = [] := by
    rw [← List.length_eq_zero_iff, Statement.length_nestedLoops_numberSeq]
    exact hloops
  have hexact := Triple.exact (I := I) hobs s hnil (Command.matched_numberSeq hmatched 0)
  rwa [Triple.CorrectAt, Statement.eraseSeq_numberSeq] at hexact

/-! ### A program for a single state -/

/-- The program `if x > 0 → x := x - 1 | x < 0 → abort fi`. -/
def decrement : Program :=
  let x : IntExpr := .name "x"
  { statements := [
      .cond [.comp .gt x (.const 0), .comp .lt x (.const 0)]
        [[.assign ⟨[.name "x"], [.int (.minus x (.const 1))], .zero⟩], [.abort .zero]] .zero] }

/-- The program `decrement` is to reach `x = 0`. It does so from `x = 1` only. -/
def decrementSpec : Spec where
  precondition := .const true
  postcondition := .comp .eq (.name "x") (.const 0)
  loops := []

/-- The obligations of the program: some guard holds, and each branch reaches zero. -/
theorem decrement_obligations :
    let x : IntExpr := .name "x"
    (generate decrementSpec decrement).map (·.map Obligation.predicate) = .ok [
      .implies (.const true) (.anyOf [.comp .gt x (.const 0), .comp .lt x (.const 0)]),
      .implies (.and (.const true) (.comp .gt x (.const 0)))
        (.comp .eq (.minus x (.const 1)) (.const 0)),
      .implies (.and (.const true) (.comp .lt x (.const 0))) (.const false)] := by
  decide +kernel

/-- The obligations of `decrement` hold where `x = 1` and not where `x = 2`: from the first state
every execution ends with `x = 0`, from the second some does not. -/
theorem decrement_exact :
    decrement.countLoops = 0 ∧ decrement.Matched ∧
      (∃ obligations, generate decrementSpec decrement = .ok obligations) ∧
      Ensures .null .total (decrementSpec.postcondition.Holds .null)
        (.running decrement.statements fun _ => .int 1) ∧
      ¬ Ensures .null .total (decrementSpec.postcondition.Holds .null)
        (.running decrement.statements fun _ => .int 2) := by
  have hloops : decrement.countLoops = 0 := by decide
  have hmatched : decrement.Matched := by
    simp [Program.Matched, decrement, Statement.MatchedSeq, Statement.Matched,
      Statement.MatchedBodies]
  have hpre : ∀ s, decrementSpec.precondition.Holds .null s := by
    simp [decrementSpec, Predicate.Holds]
  obtain ⟨obligations, hgenerate, hiff⟩ :=
    exists_obligations_of_predicates (I := .null) decrement_obligations
  refine ⟨hloops, hmatched, ⟨obligations, hgenerate⟩, ?_, fun hends => ?_⟩
  · refine (obligations_hold_iff hloops hmatched hgenerate _).mp ((hiff _).mpr ?_) (hpre _)
    simp [Predicate.Holds, CompOp.Compares, IntExpr.value, IntExpr.minus, ArithOp.apply]
  · have hall := (hiff _).mp
      ((obligations_hold_iff hloops hmatched hgenerate _).mpr fun _ => hends)
    simp [Predicate.Holds, CompOp.Compares, IntExpr.value, IntExpr.minus, ArithOp.apply] at hall

end GuardedCommand
