import GuardedCommand.Proofs.Frame

/-! # Executions that end

An execution that ends is taken apart along the statements it executes: a choice executes one of its
branches, a loop one branch after the other.

* `Runs`: an execution of statements from one state to another.
* `runs_append`, `runs_assign`, `runs_cond`: executions of sequences and of single statements.
* `runs_loop`: an execution of a loop is a sequence of executions of its branches.
* `Runs.eq_of_notMem_assigned`: what is not assigned keeps its value.
* `Runs.override`: what is not mentioned can have any value.
-/

namespace GuardedCommand

/-- The statements can be executed from `s` to the end, which is then `s'`. -/
def Runs (I : Interpretation) (ss : List Statement) (s s' : State) : Prop :=
  Steps I (.running ss s) (.running [] s')

variable {I : Interpretation} {ss ts : List Statement} {s s' u : State}

/-- No run continues after a fault. -/
theorem not_steps_fault : ¬ Steps I .fault (.running ss s) := by
  intro h
  rcases h.cases_head with heq | ⟨c, hstep, -⟩
  · cases heq
  · cases hstep

/-- The empty sequence ends where it starts. -/
@[simp] theorem runs_nil : Runs I [] s s' ↔ s = s' := by
  constructor
  · intro h
    rcases Relation.ReflTransGen.cases_head h with heq | ⟨c, hstep, -⟩
    · cases heq
      rfl
    · cases hstep
  · rintro rfl
    exact .refl

/-- A sequence is executed by executing its first part and then the second. -/
theorem runs_append : Runs I (ss ++ ts) s s' ↔ ∃ u, Runs I ss s u ∧ Runs I ts u s' := by
  constructor
  · intro h
    rcases Steps.of_append (c := .running ss s) h with ⟨c, hc, heq⟩ | ⟨u, hu, h⟩
    · -- the execution stops inside the first part, so nothing is left of either
      cases c with
      | fault => cases heq
      | running ss' u =>
        obtain ⟨⟨rfl, rfl⟩, rfl⟩ : (ss' = [] ∧ ts = []) ∧ s' = u := by
          simpa [Point.append] using heq
        exact ⟨s', hc, .refl⟩
    · exact ⟨u, hu, h⟩
  · rintro ⟨u, hu, h⟩
    exact Relation.ReflTransGen.trans (Steps.append hu ts) h

/-- A run of a sequence is one of its first statement and one of the others. -/
theorem runs_cons {a : Statement} :
    Runs I (a :: ss) s s' ↔ ∃ u, Runs I [a] s u ∧ Runs I ss u s' := by
  show Runs I ([a] ++ ss) s s' ↔ _
  exact runs_append

/-! ## Single statements -/

/-- An `abort` never ends. -/
theorem not_runs_abort {r : TextRange} : ¬ Runs I [.abort r] s s' := by
  intro h
  rcases Relation.ReflTransGen.cases_head h with heq | ⟨c, hstep, h⟩
  · cases heq
  · cases hstep
    exact not_steps_fault h

/-- A `skip` ends where it starts. -/
@[simp] theorem runs_skip {r : TextRange} : Runs I [.skip r] s s' ↔ s = s' := by
  constructor
  · intro h
    rcases Relation.ReflTransGen.cases_head h with heq | ⟨c, hstep, h⟩
    · cases heq
    · cases hstep
      exact runs_nil.mp h
  · rintro rfl
    exact .single .skip

/-- An assignment ends in the state that it writes. -/
theorem runs_assign {a : Assign} : Runs I [.assign a] s s' ↔ a.run I s = some s' := by
  constructor
  · intro h
    rcases Relation.ReflTransGen.cases_head h with heq | ⟨c, hstep, h⟩
    · cases heq
    · cases hstep with
      | assign hrun =>
        obtain rfl := runs_nil.mp h
        exact hrun
      | assignFault _ => exact absurd h not_steps_fault
  · intro hrun
    exact .single (.assign hrun)

variable {guards : List Predicate} {bodies : List (List Statement)} {r : TextRange}

/-- A branch whose guard holds in `s` can be executed from `s` to `s'`. -/
def Iterates (I : Interpretation) (guards : List Predicate) (bodies : List (List Statement))
    (s s' : State) : Prop :=
  ∃ g b, (g, b) ∈ guards.zip bodies ∧ g.Holds I s ∧ Runs I b s s'

/-- An iteration takes the first branch or one of the others. -/
theorem iterates_cons {g : Predicate} {b : List Statement} :
    Iterates I (g :: guards) (b :: bodies) s s' ↔
      (g.Holds I s ∧ Runs I b s s') ∨ Iterates I guards bodies s s' := by
  constructor
  · rintro ⟨g', b', hmem, hg, h⟩
    rw [List.zip_cons_cons] at hmem
    rcases List.mem_cons.mp hmem with heq | hmem
    · cases heq
      exact .inl ⟨hg, h⟩
    · exact .inr ⟨g', b', hmem, hg, h⟩
  · rintro (⟨hg, h⟩ | ⟨g', b', hmem, hg, h⟩)
    · exact ⟨g, b, by simp, hg, h⟩
    · exact ⟨g', b', by simp [hmem], hg, h⟩

/-- A choice executes one of its branches. -/
theorem runs_cond : Runs I [.cond guards bodies r] s s' ↔ Iterates I guards bodies s s' := by
  constructor
  · intro h
    rcases Relation.ReflTransGen.cases_head h with heq | ⟨c, hstep, h⟩
    · cases heq
    · cases hstep with
      | branch hmem hg =>
        rw [List.append_nil] at h
        exact ⟨_, _, hmem, hg, h⟩
      | noBranch _ => exact absurd h not_steps_fault
  · rintro ⟨g, b, hmem, hg, h⟩
    refine Relation.ReflTransGen.head (.branch hmem hg) ?_
    rw [List.append_nil]
    exact h

/-- What is left of an execution with a loop at its end is a rest of a branch and any number of
branches after it, until no guard holds. -/
theorem iterations_of_steps {c : Point} (h : Steps I c (.running [] s'))
    (hc : c = .running (ss ++ [.loop guards bodies r]) s) :
    ∃ u, Runs I ss s u ∧ Relation.ReflTransGen (Iterates I guards bodies) u s' ∧
      ∀ g ∈ guards, ¬ g.Holds I s' := by
  induction h using Relation.ReflTransGen.head_induction_on generalizing ss s with
  | refl =>
    simp only [Point.running.injEq] at hc
    exact absurd hc.1.symm (by simp)
  | head hstep hsteps ih =>
    subst hc
    cases ss with
    | nil =>
      -- the loop itself takes a step
      cases hstep with
      | iterate hmem hg =>
        obtain ⟨u, hu, hiter⟩ := ih rfl
        exact ⟨s, .refl, .head ⟨_, _, hmem, hg, hu⟩ hiter.1, hiter.2⟩
      | leave hexit =>
        obtain rfl := runs_nil.mp hsteps
        exact ⟨s, .refl, .refl, hexit⟩
    | cons a ss =>
      have happend : Step I (Point.append (.running (a :: ss) s) [.loop guards bodies r]) _ := hstep
      obtain ⟨c', rfl, hstep'⟩ := happend.of_append fun u heq => by cases heq
      cases c' with
      | fault => exact absurd hsteps not_steps_fault
      | running ss' s₁ =>
        obtain ⟨u, hu, hiter⟩ := ih rfl
        exact ⟨u, Relation.ReflTransGen.head hstep' hu, hiter⟩

/-- A loop executes one branch after the other until no guard holds. -/
theorem runs_loop : Runs I [.loop guards bodies r] s s' ↔
    Relation.ReflTransGen (Iterates I guards bodies) s s' ∧ ∀ g ∈ guards, ¬ g.Holds I s' := by
  constructor
  · intro h
    have hstart : Point.running [.loop guards bodies r] s =
        .running ([] ++ [.loop guards bodies r]) s := rfl
    obtain ⟨u, hu, hiter⟩ := iterations_of_steps h hstart
    obtain rfl := runs_nil.mp hu
    exact hiter
  · rintro ⟨hiter, hexit⟩
    induction hiter using Relation.ReflTransGen.head_induction_on with
    | refl => exact .single (.leave hexit)
    | head hfirst _ ih =>
      obtain ⟨g, b, hmem, hg, hrun⟩ := hfirst
      exact Relation.ReflTransGen.head (.iterate hmem hg) (runs_append.mpr ⟨_, hrun, ih⟩)

/-! ## Names that are not assigned -/

variable {x : String}

/-- Writing leaves alone the names that no target is built on. -/
theorem writeAll_eq_of_notMem {writes : List (Variable × Expr)}
    (h : writeAll I u writes s = some s') (hx : ∀ v e, (v, e) ∈ writes → v.root ≠ x) :
    s' x = s x := by
  induction writes generalizing s with
  | nil =>
    cases h
    rfl
  | cons write writes ih =>
    obtain ⟨v, e⟩ := write
    rw [writeAll] at h
    split at h
    · cases h
    · next y path hplace =>
      have hy : x ≠ y := by
        rintro rfl
        exact hx v e List.mem_cons_self (Variable.root_of_place hplace).1.symm
      rw [ih h fun v e hmem => hx v e (List.mem_cons_of_mem _ hmem), Function.update_of_ne hy]

/-- An assignment keeps all names that it does not assign. -/
theorem Assign.run_eq_of_notMem {a : Assign} (h : a.run I s = some s') (hx : x ∉ a.assigned) :
    s' x = s x := by
  unfold Assign.run at h
  split at h
  · refine writeAll_eq_of_notMem h fun v e hmem heq => hx ?_
    rw [← heq]
    exact List.mem_map_of_mem (List.of_mem_zip hmem).1
  · cases h

/-- A step keeps all names that the statements do not assign. -/
theorem Step.eq_of_notMem_assigned (h : Step I (.running ss s) (.running ts s'))
    (hx : x ∉ Statement.assignedSeq ss) : s' x = s x := by
  cases h with
  | assign hrun =>
    refine Assign.run_eq_of_notMem hrun fun hmem => hx ?_
    rw [Statement.assignedSeq, Statement.collectSeq_cons, Statement.collect]
    exact List.mem_append_left _ hmem
  | skip | branch _ _ | iterate _ _ | leave _ => rfl

/-- What is not assigned keeps its value to the end. -/
theorem Runs.eq_of_notMem_assigned (h : Runs I ss s s') (hx : x ∉ Statement.assignedSeq ss) :
    s' x = s x := by
  have hinvariant : ∀ c, Steps I (.running ss s) c → ∀ ts u, c = .running ts u →
      x ∉ Statement.assignedSeq ts ∧ u x = s x := by
    intro c hsteps
    induction hsteps with
    | refl =>
      rintro ts u heq
      cases heq
      exact ⟨hx, rfl⟩
    | @tail c c' _ hstep ih =>
      rintro ts u rfl
      cases c with
      | fault => cases hstep
      | running ts' u' =>
        obtain ⟨hx', hu'⟩ := ih ts' u' rfl
        refine ⟨fun hmem => hx' (hstep.collectSeq_subset hmem), ?_⟩
        rw [hstep.eq_of_notMem_assigned hx', hu']
  exact (hinvariant _ h [] s' rfl).2

/-- What is not mentioned can have any value throughout. -/
theorem Runs.override {K : Set String} {b : State} (h : Runs I ss s s')
    (hK : ∀ x ∈ Statement.mentionedSeq ss, x ∉ K) :
    Runs I ss (GuardedCommand.override K b s) (GuardedCommand.override K b s') :=
  Steps.override (c := .running ss s) h hK

end GuardedCommand
