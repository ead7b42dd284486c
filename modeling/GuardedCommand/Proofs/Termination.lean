import GuardedCommand.Proofs.Frame
import GuardedCommand.Proofs.Soundness

/-! # Termination of programs without nested loops

If no loop lies inside another, the obligations of a program make all executions from the
precondition end. A branch decreases the bound as a whole, since there are no loops to leave out;
the value of the bound before the branch is recorded under an auxiliary name, which nothing in the
program mentions.

* `IsAuxiliary`: the names that obligations are about and programs do not mention.
* `Command.ensures_lt_of_snapshot`: a decrease against the recorded value is a decrease.
* `Program.Flat`: no loop lies inside another.
* `Triple.correct_total`, `ends_of_obligations`: termination for triples and for programs.
-/

namespace GuardedCommand

/-- The name starts with the character of auxiliary names. -/
def IsAuxiliary (x : String) : Prop :=
  x.toList.head? = some '@'

instance : DecidablePred IsAuxiliary := fun x =>
  inferInstanceAs (Decidable (x.toList.head? = some '@'))

/-- The names of auxiliary variables are auxiliary. -/
theorem isAuxiliary_auxiliaryName (stem : Char) (n : Nat) :
    IsAuxiliary (auxiliaryName stem n) := by
  simp [IsAuxiliary, auxiliaryName]

variable {I : Interpretation} {d : Demand} {s : State} {x : String} {bound : IntExpr}
  {cs : List Command}

/-- A state in which one name has another value. -/
theorem update_eq_override (s : State) (x : String) (v : Value) :
    Function.update s x v = override {x} (fun _ => v) s := by
  funext y
  by_cases hy : y = x
  · subst hy
    simp [override]
  · simp [override, hy]

namespace Command

/-- What holds of executions that start with another value of a name that is not mentioned holds of
all executions, with that value in the end. -/
theorem ensures_of_update {R : State → Prop} {v : Value}
    (hx : x ∉ Statement.mentionedSeq (eraseSeq cs))
    (h : Ensures I d R (.running (eraseSeq cs) (Function.update s x v))) :
    Ensures I d (fun s' => R (Function.update s' x v)) (.running (eraseSeq cs) s) := by
  rw [update_eq_override] at h
  have hmentioned : ∀ y ∈ (Point.running (eraseSeq cs) s).mentioned, y ∉ ({x} : Set String) := by
    rintro y hy rfl
    exact hx hy
  simp only [update_eq_override]
  exact Ensures.of_override (c := .running (eraseSeq cs) s) h hmentioned

/-- A bound that ends below the value recorded for it has become smaller. -/
theorem ensures_lt_of_snapshot {r : TextRange} (hbound : x ∉ bound.freeNames)
    (hx : x ∉ Statement.mentionedSeq (eraseSeq cs))
    (h : Ensures I d (Predicate.Holds I (.comp .lt bound (.name x)))
      (.running (eraseSeq (.snapshot x bound r :: cs)) s)) :
    Ensures I d (fun s' => bound.eval I s' < bound.eval I s) (.running (eraseSeq cs) s) := by
  rw [eraseSeq_cons, erase, ensures_assign] at h
  obtain ⟨s₁, hrun, h⟩ := h
  rw [run_snapshot] at hrun
  cases hrun
  refine (ensures_of_update hx h).mono fun s' hs' => ?_
  rw [Predicate.holds_comp, IntExpr.eval_update_of_notMem hbound] at hs'
  simpa [IntExpr.eval, CompOp.Compares] using hs'

mutual

/-- Nothing is removed from a command without loops. -/
theorem stripLoop_of_nestedLoop : ∀ c : Command, c.nestedLoop = [] → c.stripLoop = [c]
  | .loop .., h => by simp at h
  | .cond guards bodies r, h => by
    rw [nestedLoop_cond] at h
    rw [stripLoop, stripBodies_of_bodyLoops bodies h]
  | .abort _, _ | .skip _, _ | .assign _, _ | .snapshot .., _ => by rw [stripLoop]

/-- Nothing is removed from a sequence without loops. -/
theorem stripLoops_of_nestedLoops : ∀ cs : List Command, nestedLoops cs = [] → stripLoops cs = cs
  | [], _ => by rw [stripLoops]
  | c :: cs, h => by
    rw [nestedLoops_cons, List.append_eq_nil_iff] at h
    rw [stripLoops, stripLoop_of_nestedLoop c h.1, stripLoops_of_nestedLoops cs h.2]
    rfl

/-- Nothing is removed from bodies without loops. -/
theorem stripBodies_of_bodyLoops :
    ∀ bs : List (List Command), bodyLoops bs = [] → stripBodies bs = bs
  | [], _ => by rw [stripBodies]
  | b :: bs, h => by
    rw [bodyLoops, List.append_eq_nil_iff] at h
    rw [stripBodies, stripLoops_of_nestedLoops b h.1, stripBodies_of_bodyLoops bs h.2]

end

/-- The premises of a derivation collect no names beyond those of the commands. -/
theorem hereditary_collectSeq (ofAssign : Assign → List String)
    (ofGuard : Predicate → List String) (xs : List String) :
    Hereditary fun cs => Statement.collectSeq ofAssign ofGuard (eraseSeq cs) ⊆ xs where
  head := fun c cs h => by
    rw [eraseSeq_cons, Statement.collectSeq_cons, List.append_subset] at h
    simpa using h.1
  tail := fun c cs h => by
    rw [eraseSeq_cons, Statement.collectSeq_cons, List.append_subset] at h
    exact h.2
  cond := fun guards bodies r h b hb x hx => by
    refine h ?_
    rw [eraseSeq_cons, Statement.collectSeq_cons, erase, Statement.collect, eraseBodies_eq_map]
    have hbodies := Statement.mem_collectBodies.mpr ⟨eraseSeq b, List.mem_map_of_mem hb, hx⟩
    exact List.mem_append_left _ (List.mem_append_right _ hbodies)
  loop := fun i guards bodies r h b hb x hx => by
    refine h ?_
    rw [eraseSeq_cons, Statement.collectSeq_cons, erase, Statement.collect, eraseBodies_eq_map]
    have hbodies := Statement.mem_collectBodies.mpr ⟨eraseSeq b, List.mem_map_of_mem hb, hx⟩
    exact List.mem_append_left _ (List.mem_append_right _ hbodies)

/-- What a body of a loop of a sequence mentions is mentioned in the sequence. -/
theorem mentionedSeq_subset_of_nestedLoops {l : Loop} {b : List Command}
    (hl : l ∈ nestedLoops cs) (hb : b ∈ l.bodies) :
    Statement.mentionedSeq (eraseSeq b) ⊆ Statement.mentionedSeq (eraseSeq cs) :=
  (hereditary_collectSeq _ _ (Statement.mentionedSeq (eraseSeq cs))).of_nestedLoops hb cs hl
    (List.Subset.refl _)

/-- What a body of a loop of a program mentions is mentioned in the program. -/
theorem mentionedSeq_subset_of_numberSeq {program : Program} {l : Loop} {b : List Command}
    (hl : l ∈ nestedLoops (Statement.numberSeq 0 program.statements)) (hb : b ∈ l.bodies) :
    Statement.mentionedSeq (eraseSeq b) ⊆ Statement.mentionedSeq program.statements := by
  have hsubset := mentionedSeq_subset_of_nestedLoops hl hb
  rwa [Statement.eraseSeq_numberSeq] at hsubset

end Command

/-- No loop lies inside the loop, and its bodies mention no auxiliary name. -/
def Loop.IsPlain (l : Loop) : Prop :=
  Command.bodyLoops l.bodies = [] ∧
    ∀ b ∈ l.bodies, ∀ x ∈ Statement.mentionedSeq (Command.eraseSeq b), ¬ IsAuxiliary x

/-- A plain loop whose premises are correct ends. -/
theorem Loop.ensures_total {l : Loop} {spec : LoopSpec} {before after : List Command}
    {q r : Predicate} (hlen : l.guards.length ≤ l.bodies.length) (hplain : l.IsPlain)
    (hbound : ∀ x ∈ spec.bound.freeNames, ¬ IsAuxiliary x)
    (h : l.Follows (fun p => ∀ s, p.Holds I s) (Triple.Correct I .total) spec before after q r)
    (hs : spec.invariant.Holds I s) :
    Ensures I .total (fun s' => spec.invariant.Holds I s' ∧ ∀ g ∈ l.guards, ¬ g.Holds I s')
      (.running [.loop l.guards (Command.eraseBodies l.bodies) l.range] s) := by
  refine ensures_loop_total (t := spec.bound.eval I) (by simpa using hlen)
    (fun s hs hany => ?_) (fun guard b hmem s hs hguard => ?_) hs
  · have hpositive := h.positivity s
    simp only [Predicate.holds_implies, Predicate.holds_and, Predicate.holds_anyOf,
      Predicate.holds_comp, CompOp.Compares] at hpositive
    exact hpositive ⟨hs, hany⟩
  · obtain ⟨body, hbody, rfl⟩ := Command.mem_zip_eraseBodies.mp hmem
    have hbodies := (List.of_mem_zip hbody).2
    have hpre := (Predicate.holds_and ..).mpr ⟨hs, hguard⟩
    have hloops := Command.nestedLoops_eq_nil_of_mem hplain.1 hbodies
    -- nothing is left out of the body, so that its decrease is that of the branch
    obtain ⟨n, text, hdecrease⟩ := h.decrease guard body hbody
    rw [Command.stripLoops_of_nestedLoops body hloops] at hdecrease
    have haux := isAuxiliary_auxiliaryName 't' n
    exact (h.preservation guard body hbody s hpre).and
      (Command.ensures_lt_of_snapshot (fun hx => hbound _ hx haux)
        (fun hx => hplain.2 body hbodies _ hx haux) (hdecrease s hpre))

/-- Triples with plain loops whose obligations hold in all states are correct, and their executions
end. -/
theorem Triple.correct_total {specs : List LoopSpec} {t : Triple} {context : List Frame}
    {n n' : Nat} {obs : List Obligation} (h : t.obligations specs context n = .ok (obs, n'))
    (hvalid : ∀ o ∈ obs, ∀ s, o.predicate.Holds I s)
    (hbounds : ∀ spec ∈ specs, ∀ x ∈ spec.bound.freeNames, ¬ IsAuxiliary x)
    (hmatched : Command.Matched t.commands)
    (hplain : ∀ l ∈ Command.nestedLoops t.commands, l.IsPlain) : t.Correct I .total := by
  have hP := Command.composable_matched.and (Command.composable_forall_nestedLoops Loop.IsPlain)
  refine Triple.follows_induction (F := fun p => ∀ s, p.Holds I s) (S := Triple.Correct I .total)
    hP ?_ ?_ ?_ h hvalid ⟨hmatched, hplain⟩
  · intro q r cs pre hwp hF
    exact Triple.correct_of_wpSeq hwp hF
  · intro q r before g after _ hbefore hm hfollows
    exact Choice.correct hbefore hm.1.length_cond hfollows
  · intro q r before l after spec hspec hm hfollows
    have hbound := hbounds spec (List.mem_of_getElem? hspec)
    have hl : l.IsPlain := hm.2 l (by simp)
    exact Loop.correct hfollows.entry
      (fun s hs => Loop.ensures_total hm.1.length_loop hl hbound hfollows hs) hfollows.exit

/-- No loop of the program lies inside another. -/
def Program.Flat (p : Program) : Prop :=
  ∀ l ∈ Command.nestedLoops (Statement.numberSeq 0 p.statements), Command.bodyLoops l.bodies = []

/-- If no loop lies inside another, no name is auxiliary, and all proof obligations hold in all
states, every execution from the precondition ends in the postcondition. -/
theorem ends_of_obligations {spec : Spec} {program : Program} {obligations : List Obligation}
    (hflat : program.Flat) (hmatched : program.Matched)
    (hprogram : ∀ x ∈ Statement.mentionedSeq program.statements, ¬ IsAuxiliary x)
    (hbounds : ∀ loop ∈ spec.loops, ∀ x ∈ loop.bound.freeNames, ¬ IsAuxiliary x)
    (hgenerate : generate spec program = .ok obligations)
    (hvalid : ∀ o ∈ obligations, ∀ s, o.predicate.Holds I s) {s : State}
    (hs : spec.precondition.Holds I s) :
    Ensures I .total (spec.postcondition.Holds I) (.running program.statements s) := by
  obtain ⟨n, hobs⟩ := exists_of_generate hgenerate
  have hplain : ∀ l ∈ Command.nestedLoops (Statement.numberSeq 0 program.statements),
      l.IsPlain := by
    intro l hl
    refine ⟨hflat l hl, fun b hb x hx => ?_⟩
    exact hprogram x (Command.mentionedSeq_subset_of_numberSeq hl hb hx)
  have hcorrect := Triple.correct_total hobs hvalid hbounds
    (Command.matched_numberSeq hmatched 0) hplain s hs
  rwa [Statement.eraseSeq_numberSeq] at hcorrect

/-- In `countdown` no loop lies inside another. -/
theorem countdown_flat : countdown.Flat := by
  simp [Program.Flat, countdown, Statement.numberSeq, Statement.number, Statement.numberBodies,
    Command.nestedLoop, Command.bodyLoops]

/-- From `x = -3` every execution of `countdown` ends with `x = 0`. -/
theorem countdown_ends :
    countdown.Flat ∧ countdown.Matched ∧
      (∀ x ∈ Statement.mentionedSeq countdown.statements, ¬ IsAuxiliary x) ∧
      (∀ loop ∈ countdownSpec.loops, ∀ x ∈ loop.bound.freeNames, ¬ IsAuxiliary x) ∧
      (∃ obligations, generate countdownSpec countdown = .ok obligations ∧
        ∀ o ∈ obligations, ∀ s, o.predicate.Holds .null s) ∧
      countdownSpec.precondition.Holds .null (fun _ => .int (-3)) ∧
      Ensures .null .total (countdownSpec.postcondition.Holds .null)
        (.running countdown.statements fun _ => .int (-3)) := by
  have hprogram : ∀ x ∈ Statement.mentionedSeq countdown.statements, ¬ IsAuxiliary x := by
    decide +kernel
  have hbounds : ∀ loop ∈ countdownSpec.loops, ∀ x ∈ loop.bound.freeNames, ¬ IsAuxiliary x := by
    decide +kernel
  obtain ⟨obligations, hgenerate, hvalid⟩ := countdown_valid (I := .null)
  have hpre : countdownSpec.precondition.Holds .null (fun _ => .int (-3)) := by
    simp [countdownSpec, Predicate.Holds]
  exact ⟨countdown_flat, countdown_matched, hprogram, hbounds, ⟨obligations, hgenerate, hvalid⟩,
    hpre, ends_of_obligations countdown_flat countdown_matched hprogram hbounds hgenerate hvalid
      hpre⟩

end GuardedCommand
