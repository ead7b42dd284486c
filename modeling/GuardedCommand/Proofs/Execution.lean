import GuardedCommand.Proofs.Assignment
import Mathlib.Logic.Relation
import Mathlib.Order.WellFounded

/-! # Execution of programs

Programs are executed in small steps. A point of an execution holds the statements that are left and
the current state; an execution that goes wrong ends in a fault. A choice takes any branch whose
guard holds and fails if no guard does, a loop repeats any such branch until no guard holds.

* `Step`, `Steps`: one step, and any number of steps.
* `Ensures`: all executions from a point end well, if they end at all (`Demand.safe`) or
  necessarily (`Demand.total`).
* `ensures_iff`: what a point ensures is what its successors ensure.
* `ensures_append`: a sequence ensures that its first part ensures what the second part needs.
* `ensures_skip`, `ensures_assign`, `ensures_cond`: the same for single statements.
* `ensures_loop_safe`, `ensures_loop_total`: loops with an invariant, and with a bound.
-/

namespace GuardedCommand

/-- A point of an execution. -/
inductive Point where
  /-- The statements `rest` are to be executed in the state `s`. -/
  | running (rest : List Statement) (s : State)
  /-- The execution has failed. -/
  | fault

/-- One step of an execution. -/
inductive Step (I : Interpretation) : Point → Point → Prop where
  | abort {r ss s} : Step I (.running (.abort r :: ss) s) .fault
  | skip {r ss s} : Step I (.running (.skip r :: ss) s) (.running ss s)
  | assign {a ss s s'} (h : a.run I s = some s') :
    Step I (.running (.assign a :: ss) s) (.running ss s')
  /-- An assignment without effect is a failure. -/
  | assignFault {a ss s} (h : a.run I s = none) : Step I (.running (.assign a :: ss) s) .fault
  | branch {guards bodies r ss s g b} (hmem : (g, b) ∈ guards.zip bodies) (hg : g.Holds I s) :
    Step I (.running (.cond guards bodies r :: ss) s) (.running (b ++ ss) s)
  | noBranch {guards bodies r ss s} (h : ∀ g ∈ guards, ¬ g.Holds I s) :
    Step I (.running (.cond guards bodies r :: ss) s) .fault
  | iterate {guards bodies r ss s g b} (hmem : (g, b) ∈ guards.zip bodies) (hg : g.Holds I s) :
    Step I (.running (.loop guards bodies r :: ss) s)
      (.running (b ++ .loop guards bodies r :: ss) s)
  | leave {guards bodies r ss s} (h : ∀ g ∈ guards, ¬ g.Holds I s) :
    Step I (.running (.loop guards bodies r :: ss) s) (.running ss s)

/-- Any number of steps. -/
abbrev Steps (I : Interpretation) : Point → Point → Prop :=
  Relation.ReflTransGen (Step I)

/-- No step leads on from `c`. -/
def Halted (I : Interpretation) (c : Point) : Prop :=
  ∀ d, ¬ Step I c d

/-- What is asked of executions. -/
inductive Demand where
  /-- Those that end, end well. -/
  | safe
  /-- All of them end, and end well. -/
  | total

/-- Every execution from `c` that ends has nothing left to execute and satisfies `R`; if the demand
is total there is no infinite execution. -/
structure Ensures (I : Interpretation) (d : Demand) (R : State → Prop) (c : Point) : Prop where
  /-- An execution stops nowhere but at its end, where `R` holds. -/
  halts : ∀ c', Steps I c c' → Halted I c' → ∃ s, c' = .running [] s ∧ R s
  /-- No execution goes on forever. -/
  ends : d = .total → ¬ ∃ run : ℕ → Point, run 0 = c ∧ ∀ n, Step I (run n) (run (n + 1))

variable {I : Interpretation} {d : Demand} {R : State → Prop} {c c' : Point} {s : State}

/-- An execution with nothing left to execute has come to its end. -/
theorem halted_nil : Halted I (.running [] s) := by
  intro c h
  cases h

/-- An execution that has failed does not go on. -/
theorem halted_fault : Halted I .fault := by
  intro c h
  cases h

/-! ## Executions step by step -/

/-- A total demand makes the next points well-founded. -/
theorem Ensures.acc (h : Ensures I .total R c) : Acc (fun c' c => Step I c c') c := by
  by_contra hacc
  exact h.ends rfl (not_acc_iff_exists_descending_chain.mp hacc)

/-- From an accessible point no execution goes on forever. -/
theorem ends_of_acc (h : d = .total → Acc (fun c' c => Step I c c') c) :
    d = .total → ¬ ∃ run : ℕ → Point, run 0 = c ∧ ∀ n, Step I (run n) (run (n + 1)) :=
  fun hd hrun => not_acc_iff_exists_descending_chain.mpr hrun (h hd)

/-- What is ensured is ensured after a step. -/
theorem Ensures.step (h : Ensures I d R c) (hstep : Step I c c') : Ensures I d R c' where
  halts := fun e hsteps => h.halts e (hsteps.head hstep)
  ends := ends_of_acc fun hd => by
    subst hd
    exact h.acc.inv hstep

/-- What is ensured is ensured after any number of steps. -/
theorem Ensures.steps (h : Ensures I d R c) (hsteps : Steps I c c') : Ensures I d R c' := by
  induction hsteps with
  | refl => exact h
  | tail _ hstep ih => exact ih.step hstep

/-- A point ensures `R` if it is an end that satisfies `R`, or if it can go on and all its
successors ensure `R`. -/
theorem ensures_iff :
    Ensures I d R c ↔ (∃ s, c = .running [] s ∧ R s) ∨
      ((∃ c', Step I c c') ∧ ∀ c', Step I c c' → Ensures I d R c') := by
  constructor
  · intro h
    by_cases hhalt : Halted I c
    · exact .inl (h.halts c .refl hhalt)
    · simp only [Halted, not_forall, not_not] at hhalt
      exact .inr ⟨hhalt, fun c' hstep => h.step hstep⟩
  · rintro (⟨s, rfl, hR⟩ | ⟨⟨c₁, h₁⟩, hnext⟩)
    · refine ⟨fun e hsteps _ => ?_, ends_of_acc fun _ => ⟨_, fun e he => absurd he (halted_nil e)⟩⟩
      rcases hsteps.cases_head with rfl | ⟨e', he', -⟩
      · exact ⟨s, rfl, hR⟩
      · exact absurd he' (halted_nil e')
    · refine ⟨fun e hsteps hhalt => ?_, ends_of_acc fun hd => ⟨_, fun e he => ?_⟩⟩
      · rcases hsteps.cases_head with rfl | ⟨e', he', hsteps⟩
        · exact absurd h₁ (hhalt c₁)
        · exact (hnext e' he').halts e hsteps hhalt
      · subst hd
        exact (hnext e he).acc

/-- At the end it is ensured what holds there. -/
@[simp] theorem ensures_nil : Ensures I d R (.running [] s) ↔ R s := by
  rw [ensures_iff]
  constructor
  · rintro (⟨s', heq, hR⟩ | ⟨⟨c', h⟩, -⟩)
    · cases heq
      exact hR
    · exact absurd h (halted_nil c')
  · exact fun hR => .inl ⟨s, rfl, hR⟩

/-- Nothing is ensured after a failure. -/
theorem not_ensures_fault : ¬ Ensures I d R .fault := by
  intro h
  obtain ⟨s, heq, -⟩ := h.halts .fault .refl halted_fault
  cases heq

/-- With something left to execute, the successors decide. -/
theorem ensures_cons {a : Statement} {ss : List Statement} :
    Ensures I d R (.running (a :: ss) s) ↔
      (∃ c', Step I (.running (a :: ss) s) c') ∧
        ∀ c', Step I (.running (a :: ss) s) c' → Ensures I d R c' := by
  rw [ensures_iff]
  constructor
  · rintro (⟨s', heq, -⟩ | h)
    · cases heq
    · exact h
  · exact .inr

/-- What is ensured is ensured with a weaker condition at the end. -/
theorem Ensures.mono {R' : State → Prop} (h : Ensures I d R c) (himp : ∀ s, R s → R' s) :
    Ensures I d R' c where
  halts := fun c' hsteps hhalt => by
    obtain ⟨s, rfl, hR⟩ := h.halts c' hsteps hhalt
    exact ⟨s, rfl, himp s hR⟩
  ends := h.ends

/-- Two conditions that are ensured are ensured together. -/
theorem Ensures.and {R' : State → Prop} (h : Ensures I d R c) (h' : Ensures I d R' c) :
    Ensures I d (fun s => R s ∧ R' s) c where
  halts := fun c' hsteps hhalt => by
    obtain ⟨s, rfl, hR⟩ := h.halts c' hsteps hhalt
    obtain ⟨s', heq, hR'⟩ := h'.halts _ hsteps hhalt
    cases heq
    exact ⟨s, rfl, hR, hR'⟩
  ends := h.ends

/-- A set of points that all end well or go on inside the set is safe. -/
theorem ensures_safe_of_invariant {C : Point → Prop}
    (hC : ∀ c, C c → (∃ s, c = .running [] s ∧ R s) ∨
      ((∃ c', Step I c c') ∧ ∀ c', Step I c c' → C c')) (hc : C c) : Ensures I .safe R c := by
  refine ⟨fun e hsteps hhalt => ?_, fun hd => by cases hd⟩
  -- the set is never left
  have he : C e := by
    clear hhalt
    induction hsteps with
    | refl => exact hc
    | tail _ hstep ih =>
      rcases hC _ ih with ⟨s, rfl, -⟩ | ⟨-, hnext⟩
      · exact absurd hstep (halted_nil _)
      · exact hnext _ hstep
  rcases hC e he with hend | ⟨⟨e', he'⟩, -⟩
  · exact hend
  · exact absurd he' (hhalt e')

/-! ## Sequences -/

/-- A point with more to execute after it. -/
def Point.append : Point → List Statement → Point
  | .running ss s, ts => .running (ss ++ ts) s
  | .fault, _ => .fault

variable {ss ts : List Statement}

/-- What follows does not hinder a step. -/
theorem Step.append (h : Step I c c') (ts : List Statement) :
    Step I (c.append ts) (c'.append ts) := by
  cases h with
  | abort => exact .abort
  | skip => exact .skip
  | assign h => exact .assign h
  | assignFault h => exact .assignFault h
  | branch hmem hg =>
    simp only [Point.append, List.cons_append, List.append_assoc]
    exact .branch hmem hg
  | noBranch h => exact .noBranch h
  | iterate hmem hg =>
    simp only [Point.append, List.cons_append, List.append_assoc]
    exact .iterate hmem hg
  | leave h => exact .leave h

/-- An execution is the same with something left to execute after it. -/
theorem Steps.append (h : Steps I c c') (ts : List Statement) :
    Steps I (c.append ts) (c'.append ts) := by
  induction h with
  | refl => exact .refl
  | tail _ hstep ih => exact ih.tail (hstep.append ts)

/-- As long as something is left of the first part, a step of a sequence is one of that part. -/
theorem Step.of_append {e : Point} (h : Step I (c.append ts) e)
    (hc : ∀ s, c ≠ .running [] s) : ∃ c', e = c'.append ts ∧ Step I c c' := by
  cases c with
  | fault => cases h
  | running ss s =>
    cases ss with
    | nil => exact absurd rfl (hc s)
    | cons a ss =>
      simp only [Point.append, List.cons_append] at h
      cases h with
      | abort => exact ⟨.fault, rfl, .abort⟩
      | skip => exact ⟨.running ss s, rfl, .skip⟩
      | assign h => exact ⟨.running ss _, rfl, .assign h⟩
      | assignFault h => exact ⟨.fault, rfl, .assignFault h⟩
      | branch hmem hg =>
        exact ⟨_, by simp only [Point.append, List.append_assoc], .branch hmem hg⟩
      | noBranch h => exact ⟨.fault, rfl, .noBranch h⟩
      | iterate hmem hg =>
        exact ⟨_, by simp only [Point.append, List.append_assoc, List.cons_append],
          .iterate hmem hg⟩
      | leave h => exact ⟨.running ss s, rfl, .leave h⟩

/-- An execution of a sequence is inside its first part, or it has ended that part and is inside
the second. -/
theorem Steps.of_append {e : Point} (h : Steps I (c.append ts) e) :
    (∃ c', Steps I c c' ∧ e = c'.append ts) ∨
      ∃ s, Steps I c (.running [] s) ∧ Steps I (.running ts s) e := by
  induction h with
  | refl => exact .inl ⟨c, .refl, rfl⟩
  | tail _ hstep ih =>
    rcases ih with ⟨c', hc', rfl⟩ | ⟨s, hc, hs⟩
    · -- the step is the first one of the second part, or one of the first part
      by_cases hend : ∃ s, c' = .running [] s
      · obtain ⟨s, rfl⟩ := hend
        exact .inr ⟨s, hc', .single hstep⟩
      · obtain ⟨c'', rfl, hstep'⟩ := hstep.of_append fun s heq => hend ⟨s, heq⟩
        exact .inl ⟨c'', hc'.tail hstep', rfl⟩
    · exact .inr ⟨s, hc, hs.tail hstep⟩

/-- If a sequence ensures `R`, its first part ensures that the second does. -/
theorem Ensures.of_append (h : Ensures I d R (c.append ts)) :
    Ensures I d (fun s => Ensures I d R (.running ts s)) c where
  halts := fun c' hsteps hhalt => by
    by_cases hend : ∃ s, c' = .running [] s
    · obtain ⟨s, rfl⟩ := hend
      exact ⟨s, rfl, h.steps (hsteps.append ts)⟩
    · -- the sequence would be stuck where its first part is
      have hstuck : Halted I (c'.append ts) := by
        intro e he
        obtain ⟨c'', -, hstep⟩ := he.of_append fun s heq => hend ⟨s, heq⟩
        exact hhalt c'' hstep
      obtain ⟨s, heq, -⟩ := h.halts _ (hsteps.append ts) hstuck
      cases c' with
      | fault => cases heq
      | running ss s' =>
        obtain ⟨rfl, -⟩ : ss = [] ∧ ts = [] := by
          simp only [Point.append, Point.running.injEq, List.append_eq_nil_iff] at heq
          exact heq.1
        exact absurd ⟨s', rfl⟩ hend
  ends := fun hd ⟨run, h0, hrun⟩ =>
    h.ends hd ⟨fun n => (run n).append ts, congrArg (·.append ts) h0,
      fun n => (hrun n).append ts⟩

/-- If the first part of a sequence ensures that the second ensures `R`, the sequence does. -/
theorem Ensures.append (h : Ensures I d (fun s => Ensures I d R (.running ts s)) c) :
    Ensures I d R (c.append ts) where
  halts := fun e hsteps hhalt => by
    rcases hsteps.of_append with ⟨c', hc', rfl⟩ | ⟨s, hc, hs⟩
    · by_cases hend : ∃ s, c' = .running [] s
      · obtain ⟨s, rfl⟩ := hend
        exact (ensures_nil.mp (h.steps hc')).halts _ .refl hhalt
      · have hstuck : Halted I c' := fun c'' hstep => hhalt _ (hstep.append ts)
        obtain ⟨s, rfl, -⟩ := h.halts c' hc' hstuck
        exact absurd ⟨s, rfl⟩ hend
    · exact (ensures_nil.mp (h.steps hc)).halts e hs hhalt
  ends := ends_of_acc fun hd => by
    subst hd
    -- along the points that can follow in the first part, of which there is no infinite chain
    have hacc := h.acc
    induction hacc with
    | intro c _ ih =>
      by_cases hend : ∃ s, c = .running [] s
      · obtain ⟨s, rfl⟩ := hend
        exact (ensures_nil.mp h).acc
      · refine ⟨_, fun e he => ?_⟩
        obtain ⟨c', rfl, hstep⟩ := he.of_append fun s heq => hend ⟨s, heq⟩
        exact ih c' hstep (h.step hstep)

/-- A sequence ensures `R` exactly if its first part ensures that the second part does. -/
theorem ensures_append :
    Ensures I d R (.running (ss ++ ts) s) ↔
      Ensures I d (fun s' => Ensures I d R (.running ts s')) (.running ss s) :=
  ⟨Ensures.of_append (c := .running ss s), Ensures.append (c := .running ss s)⟩

/-! ## Single statements -/

/-- Nothing is ensured before an `abort`. -/
theorem not_ensures_abort {r : TextRange} : ¬ Ensures I d R (.running (.abort r :: ss) s) :=
  fun h => not_ensures_fault ((ensures_cons.mp h).2 _ .abort)

/-- A `skip` changes nothing in what is ensured. -/
@[simp] theorem ensures_skip {r : TextRange} :
    Ensures I d R (.running (.skip r :: ss) s) ↔ Ensures I d R (.running ss s) := by
  rw [ensures_cons]
  constructor
  · exact fun h => h.2 _ .skip
  · refine fun h => ⟨⟨_, .skip⟩, fun c' hstep => ?_⟩
    cases hstep
    exact h

/-- An assignment ensures what follows it in the state it leads to. -/
theorem ensures_assign {a : Assign} :
    Ensures I d R (.running (.assign a :: ss) s) ↔
      ∃ s', a.run I s = some s' ∧ Ensures I d R (.running ss s') := by
  rw [ensures_cons]
  constructor
  · rintro ⟨-, hnext⟩
    cases hrun : a.run I s with
    | none => exact absurd (hnext _ (.assignFault hrun)) not_ensures_fault
    | some s' => exact ⟨s', rfl, hnext _ (.assign hrun)⟩
  · rintro ⟨s', hrun, h⟩
    refine ⟨⟨_, .assign hrun⟩, fun c' hstep => ?_⟩
    cases hstep with
    | assign hrun' =>
      rw [hrun] at hrun'
      cases hrun'
      exact h
    | assignFault hrun' =>
      rw [hrun] at hrun'
      cases hrun'

/-- A guard has its body, if there are at least as many bodies as guards. -/
theorem exists_mem_zip_of_mem {α β : Type} {as : List α} {bs : List β} {a : α} (ha : a ∈ as)
    (hlen : as.length ≤ bs.length) : ∃ b, (a, b) ∈ as.zip bs := by
  obtain ⟨i, hi, rfl⟩ := List.getElem_of_mem ha
  refine ⟨bs[i], ?_⟩
  have hzip : i < (as.zip bs).length := by
    rw [List.length_zip]
    omega
  rw [← List.getElem_zip (h := hzip)]
  exact List.getElem_mem hzip

variable {guards : List Predicate} {bodies : List (List Statement)} {r : TextRange}

/-- A choice ensures `R` if a guard holds and every branch whose guard holds ensures `R`. -/
theorem ensures_cond (hlen : guards.length ≤ bodies.length) :
    Ensures I d R (.running (.cond guards bodies r :: ss) s) ↔
      (∃ g ∈ guards, g.Holds I s) ∧
        ∀ g b, (g, b) ∈ guards.zip bodies → g.Holds I s →
          Ensures I d R (.running (b ++ ss) s) := by
  rw [ensures_cons]
  constructor
  · rintro ⟨-, hnext⟩
    refine ⟨?_, fun g b hmem hg => hnext _ (.branch hmem hg)⟩
    by_contra hnone
    exact not_ensures_fault (hnext _ (.noBranch fun g hg hholds => hnone ⟨g, hg, hholds⟩))
  · rintro ⟨⟨g, hg, hholds⟩, hbranches⟩
    obtain ⟨b, hmem⟩ := exists_mem_zip_of_mem hg hlen
    refine ⟨⟨_, .branch hmem hholds⟩, fun c' hstep => ?_⟩
    cases hstep with
    | branch hmem' hholds' => exact hbranches _ _ hmem' hholds'
    | noBranch hnone => exact absurd hholds (hnone g hg)

/-! ## Loops -/

/-- The loop goes on through a branch or ends; it never stops in between. -/
theorem exists_step_loop (hlen : guards.length ≤ bodies.length) (s : State) :
    ∃ c', Step I (.running (.loop guards bodies r :: ss) s) c' := by
  by_cases hany : ∃ g ∈ guards, g.Holds I s
  · obtain ⟨g, hg, hholds⟩ := hany
    obtain ⟨b, hmem⟩ := exists_mem_zip_of_mem hg hlen
    exact ⟨_, .iterate hmem hholds⟩
  · exact ⟨_, .leave fun g hg hholds => hany ⟨g, hg, hholds⟩⟩

/-- A loop whose branches keep the invariant `P` ends, if it ends, where `P` and no guard holds. -/
theorem ensures_loop_safe {P : State → Prop} (hlen : guards.length ≤ bodies.length)
    (hbody : ∀ g b, (g, b) ∈ guards.zip bodies → ∀ s, P s → g.Holds I s →
      Ensures I .safe P (.running b s)) (hP : P s) :
    Ensures I .safe (fun s' => P s' ∧ ∀ g ∈ guards, ¬ g.Holds I s')
      (.running [.loop guards bodies r] s) := by
  -- the executions stay inside a branch in front of the loop until they end
  let C : Point → Prop := fun c =>
    (∃ c', c = c'.append [.loop guards bodies r] ∧ Ensures I .safe P c') ∨
      ∃ s', c = .running [] s' ∧ P s' ∧ ∀ g ∈ guards, ¬ g.Holds I s'
  refine ensures_safe_of_invariant (C := C) ?_ (.inl ⟨.running [] s, rfl, ensures_nil.mpr hP⟩)
  rintro c (⟨c', rfl, h⟩ | hend)
  · refine .inr ?_
    rcases ensures_iff.mp h with ⟨s', rfl, hP'⟩ | ⟨⟨c₁, h₁⟩, hnext⟩
    · refine ⟨exists_step_loop hlen s', fun e he => ?_⟩
      cases he with
      | iterate hmem hg => exact .inl ⟨.running _ s', rfl, hbody _ _ hmem s' hP' hg⟩
      | leave hnone => exact .inr ⟨s', rfl, hP', hnone⟩
    · refine ⟨⟨_, h₁.append _⟩, fun e he => ?_⟩
      obtain ⟨c'', rfl, hstep⟩ := he.of_append (by
        rintro s' rfl
        exact halted_nil _ h₁)
      exact .inl ⟨c'', rfl, hnext c'' hstep⟩
  · exact .inl hend

/-- A loop whose branches keep the invariant `P` and decrease the bound `t`, which is positive as
long as a guard holds, ends where `P` and no guard holds. -/
theorem ensures_loop_total {P : State → Prop} {t : State → Int}
    (hlen : guards.length ≤ bodies.length)
    (hpos : ∀ s, P s → (∃ g ∈ guards, g.Holds I s) → 0 < t s)
    (hbody : ∀ g b, (g, b) ∈ guards.zip bodies → ∀ s, P s → g.Holds I s →
      Ensures I .total (fun s' => P s' ∧ t s' < t s) (.running b s)) (hP : P s) :
    Ensures I .total (fun s' => P s' ∧ ∀ g ∈ guards, ¬ g.Holds I s')
      (.running [.loop guards bodies r] s) := by
  induction hn : (t s).toNat using Nat.strong_induction_on generalizing s with
  | _ n ih =>
    refine ensures_cons.mpr ⟨exists_step_loop hlen s, fun c' hstep => ?_⟩
    cases hstep with
    | leave hnone => exact ensures_nil.mpr ⟨hP, hnone⟩
    | iterate hmem hg =>
      have hpositive := hpos s hP ⟨_, (List.of_mem_zip hmem).1, hg⟩
      refine ensures_append.mpr ((hbody _ _ hmem s hP hg).mono fun s' hs' => ?_)
      exact ih (t s').toNat (by omega) hs'.1 rfl

end GuardedCommand
