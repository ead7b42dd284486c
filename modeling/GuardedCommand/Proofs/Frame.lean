import GuardedCommand.Proofs.Execution

/-! # Names a program does not touch

A program neither reads nor writes names it does not mention: whatever values these have, its
executions are the same and leave them as they are.

* `Statement.mentionedSeq`, `Statement.assignedSeq`: the names of a sequence of statements, and
  those it writes. Both are cases of `Statement.collectSeq`.
* `override`: a state with other values for some names.
* `Steps.override`, `Ensures.of_override`: executions do not depend on names that are not mentioned.
-/

namespace GuardedCommand

/-- The name that a variable is built on. -/
def Variable.root : Variable → String
  | .name x => x
  | .select b _ => b.root
  | .store b _ _ => b.root

/-- The names that occur free in an assignment. -/
def Assign.mentioned (a : Assign) : List String :=
  a.lvalues.flatMap Variable.freeNames ++ a.rvalues.flatMap Expr.freeNames

/-- The names that an assignment writes. -/
def Assign.assigned (a : Assign) : List String :=
  a.lvalues.map Variable.root

namespace Statement

section Collect

variable (ofAssign : Assign → List String) (ofGuard : Predicate → List String)

mutual

/-- The names collected from the assignments and the guards of a statement. -/
def collect : Statement → List String
  | .abort _ | .skip _ => []
  | .assign a => ofAssign a
  | .cond guards bodies _ | .loop guards bodies _ =>
    guards.flatMap ofGuard ++ collectBodies bodies

/-- The names collected from a sequence of statements. -/
def collectSeq : List Statement → List String
  | [] => []
  | a :: ss => a.collect ++ collectSeq ss

/-- The names collected from bodies. -/
def collectBodies : List (List Statement) → List String
  | [] => []
  | b :: bs => collectSeq b ++ collectBodies bs

end

variable {ofAssign ofGuard}

/-- Nothing is collected from the empty sequence. -/
@[simp] theorem collectSeq_nil : collectSeq ofAssign ofGuard [] = [] := by simp only [collectSeq]

/-- From a sequence one collects what its first statement has and what the rest has. -/
@[simp] theorem collectSeq_cons (a : Statement) (ss : List Statement) :
    collectSeq ofAssign ofGuard (a :: ss) =
      a.collect ofAssign ofGuard ++ collectSeq ofAssign ofGuard ss := by simp only [collectSeq]

/-- From a sequence one collects what its parts have. -/
@[simp] theorem collectSeq_append (ss ts : List Statement) :
    collectSeq ofAssign ofGuard (ss ++ ts) =
      collectSeq ofAssign ofGuard ss ++ collectSeq ofAssign ofGuard ts := by
  induction ss with
  | nil => simp
  | cons a ss ih => simp [ih]

/-- What is collected from bodies is collected from one of them. -/
theorem mem_collectBodies {bs : List (List Statement)} {x : String} :
    x ∈ collectBodies ofAssign ofGuard bs ↔ ∃ b ∈ bs, x ∈ collectSeq ofAssign ofGuard b := by
  induction bs with
  | nil => simp [collectBodies]
  | cons b bs ih => simp [collectBodies, ih]

end Collect

/-- The names that occur free in a sequence of statements. -/
abbrev mentionedSeq : List Statement → List String :=
  collectSeq Assign.mentioned Predicate.freeNames

/-- The names that a sequence of statements writes. -/
abbrev assignedSeq : List Statement → List String :=
  collectSeq Assign.assigned fun _ => []

end Statement

/-- A branch of a choice or a loop collects no more names than the choice or the loop. -/
theorem Step.collectSeq_subset {I : Interpretation} {ofAssign : Assign → List String}
    {ofGuard : Predicate → List String} {ss ss' : List Statement} {s s' : State}
    (h : Step I (.running ss s) (.running ss' s')) :
    Statement.collectSeq ofAssign ofGuard ss' ⊆ Statement.collectSeq ofAssign ofGuard ss := by
  intro x hx
  cases h with
  | skip | assign h | leave h =>
    rw [Statement.collectSeq_cons]
    exact List.mem_append_right _ hx
  | branch hmem hg =>
    rw [Statement.collectSeq_append, List.mem_append] at hx
    rw [Statement.collectSeq_cons, Statement.collect]
    rcases hx with hx | hx
    · have hbodies := Statement.mem_collectBodies.mpr ⟨_, (List.of_mem_zip hmem).2, hx⟩
      exact List.mem_append_left _ (List.mem_append_right _ hbodies)
    · exact List.mem_append_right _ hx
  | iterate hmem hg =>
    -- the loop itself is left behind the branch
    rw [Statement.collectSeq_append, List.mem_append] at hx
    rcases hx with hx | hx
    · have hbodies := Statement.mem_collectBodies.mpr ⟨_, (List.of_mem_zip hmem).2, hx⟩
      rw [Statement.collectSeq_cons, Statement.collect]
      exact List.mem_append_left _ (List.mem_append_right _ hbodies)
    · exact hx

/-! ## States with other values for some names -/

open Classical in
/-- The state that gives the names in `K` their values in `b` and the others their values in `s`. -/
noncomputable def override (K : Set String) (b s : State) : State :=
  fun x => if x ∈ K then b x else s x

variable {I : Interpretation} {K : Set String} {b s : State} {x : String}

/-- A name in `K` has the other value. -/
theorem override_of_mem (h : x ∈ K) : override K b s x = b x := if_pos h

/-- A name outside `K` has its own value. -/
theorem override_of_notMem (h : x ∉ K) : override K b s x = s x := if_neg h

/-- A name outside `K` can be given a value before or after. -/
theorem override_update (h : x ∉ K) (v : Value) :
    override K b (Function.update s x v) = Function.update (override K b s) x v := by
  funext y
  by_cases hy : y = x
  · subst hy
    simp [override, h]
  · simp [override, hy]

/-- A predicate does not depend on names that it does not mention. -/
theorem Predicate.holds_override {p : Predicate} (h : ∀ x ∈ p.freeNames, x ∉ K) :
    p.Holds I (override K b s) ↔ p.Holds I s :=
  Predicate.holds_congr (m := .free) p fun x hx => override_of_notMem (h x hx)

/-- An integer expression does not depend on names that it does not mention. -/
theorem IntExpr.eval_override {e : IntExpr} (h : ∀ x ∈ e.freeNames, x ∉ K) :
    e.eval I (override K b s) = e.eval I s :=
  IntExpr.eval_congr (m := .free) e fun x hx => override_of_notMem (h x hx)

/-- An expression does not depend on names that it does not mention. -/
theorem Expr.value_override {e : Expr} (h : ∀ x ∈ e.freeNames, x ∉ K) :
    e.value I (override K b s) = e.value I s :=
  Expr.value_congr (m := .free) e fun x hx => override_of_notMem (h x hx)

/-- The place of a target does not depend on other names. -/
theorem Variable.place_override {v : Variable} (h : ∀ x ∈ v.freeNames, x ∉ K) :
    v.place I (override K b s) = v.place I s := by
  induction v using Variable.root.induct with
  | case1 x => rfl
  | case2 v i ih =>
    simp only [Variable.freeNames, Variable.names, List.mem_append] at h
    rw [Variable.place, Variable.place, ih fun x hx => h x (.inl hx),
      IntExpr.eval_override fun x hx => h x (.inr hx)]
  | case3 v i e => rfl

/-- A target is placed at the name it is built on, which occurs in it. -/
theorem Variable.root_of_place {v : Variable} {path : List Int} (h : v.place I s = some (x, path)) :
    x = v.root ∧ x ∈ v.freeNames := by
  induction v using Variable.root.induct generalizing path with
  | case1 y =>
    simp only [Variable.place, Option.some.injEq, Prod.mk.injEq] at h
    simp [Variable.root, Variable.freeNames, Variable.names, h.1]
  | case2 v i ih =>
    obtain ⟨⟨y, path'⟩, hv, heq⟩ := Option.map_eq_some_iff.mp h
    obtain ⟨rfl, -⟩ : y = x ∧ path' ++ [i.eval I s] = path := by simpa using heq
    obtain ⟨hroot, hmem⟩ := ih hv
    exact ⟨hroot, List.mem_append_left _ hmem⟩
  | case3 v i e => cases h

/-! ## Executions that do not mention some names -/

/-- Writing does not depend on names that are not mentioned. -/
theorem writeAll_override {writes : List (Variable × Expr)} {s' : State}
    (h : ∀ v e, (v, e) ∈ writes → ∀ x ∈ v.freeNames ++ e.freeNames, x ∉ K) :
    writeAll I (override K b s) writes (override K b s') =
      (writeAll I s writes s').map (override K b) := by
  induction writes generalizing s' with
  | nil => rfl
  | cons write writes ih =>
    obtain ⟨v, e⟩ := write
    have hv : ∀ x ∈ v.freeNames, x ∉ K := fun x hx =>
      h v e List.mem_cons_self x (List.mem_append_left _ hx)
    have he : ∀ x ∈ e.freeNames, x ∉ K := fun x hx =>
      h v e List.mem_cons_self x (List.mem_append_right _ hx)
    rw [writeAll, writeAll, Variable.place_override hv]
    cases hplace : v.place I s with
    | none => rfl
    | some place =>
      obtain ⟨x, path⟩ := place
      -- the name that is written occurs in the target
      have hx : x ∉ K := hv x (Variable.root_of_place hplace).2
      simp only
      rw [Expr.value_override he, override_of_notMem hx, ← override_update hx]
      exact ih fun v e hmem => h v e (List.mem_cons_of_mem _ hmem)

/-- An assignment does not depend on names that it does not mention. -/
theorem Assign.run_override {a : Assign} (h : ∀ x ∈ a.mentioned, x ∉ K) :
    a.run I (override K b s) = (a.run I s).map (override K b) := by
  unfold Assign.run
  split
  · refine writeAll_override fun v e hmem x hx => h x ?_
    obtain ⟨hv, he⟩ := List.of_mem_zip hmem
    rw [Assign.mentioned, List.mem_append, List.mem_flatMap, List.mem_flatMap]
    rcases List.mem_append.mp hx with hx | hx
    · exact .inl ⟨v, hv, hx⟩
    · exact .inr ⟨e, he, hx⟩
  · rfl

namespace Point

/-- The names that are mentioned in what is left to execute. -/
def mentioned : Point → List String
  | .running ss _ => Statement.mentionedSeq ss
  | .fault => []

/-- A point with other values for some names. -/
noncomputable def override (K : Set String) (b : State) : Point → Point
  | .running ss s => .running ss (GuardedCommand.override K b s)
  | .fault => .fault

end Point

/-- What is mentioned in a sequence is mentioned in its first statement or in the rest. -/
theorem Point.mentioned_cons {a : Statement} {ss : List Statement} :
    (Point.running (a :: ss) s).mentioned =
      a.collect Assign.mentioned Predicate.freeNames ++ Statement.mentionedSeq ss :=
  Statement.collectSeq_cons a ss

variable {c c' e : Point}

/-- A step leaves nothing to execute that mentions a further name. -/
theorem Step.mentioned_subset (h : Step I c c') : c'.mentioned ⊆ c.mentioned := by
  cases c with
  | fault => cases h
  | running ss s =>
    cases c' with
    | fault => exact List.nil_subset _
    | running ss' s' => exact h.collectSeq_subset

section Guards

variable {guards : List Predicate} {bodies : List (List Statement)} {g : Predicate}

/-- The guard of a choice or a loop does not depend on names that are not mentioned. -/
theorem holds_guard_override (hg : g ∈ guards)
    (hK : ∀ x ∈ guards.flatMap Predicate.freeNames ++
      Statement.collectBodies Assign.mentioned Predicate.freeNames bodies, x ∉ K) :
    g.Holds I (override K b s) ↔ g.Holds I s :=
  Predicate.holds_override fun x hx =>
    hK x (List.mem_append_left _ (List.mem_flatMap.mpr ⟨g, hg, hx⟩))

end Guards

/-- Other values for names that are not mentioned do not hinder a step. -/
theorem Step.override (h : Step I c c') (hK : ∀ x ∈ c.mentioned, x ∉ K) :
    Step I (c.override K b) (c'.override K b) := by
  cases c with
  | fault => cases h
  | running ss s =>
    cases ss with
    | nil => cases h
    | cons a ss =>
      have ha : ∀ x ∈ a.collect Assign.mentioned Predicate.freeNames, x ∉ K := fun x hx =>
        hK x (Point.mentioned_cons ▸ List.mem_append_left _ hx)
      -- The step is the same because nothing that is evaluated mentions a name in `K`.
      cases h with
      | abort => exact .abort
      | skip => exact .skip
      | assign h =>
        rw [Statement.collect] at ha
        exact .assign (by rw [Assign.run_override ha, h]; rfl)
      | assignFault h =>
        rw [Statement.collect] at ha
        exact .assignFault (by rw [Assign.run_override ha, h]; rfl)
      | branch hmem hg =>
        rw [Statement.collect] at ha
        exact .branch hmem ((holds_guard_override (List.of_mem_zip hmem).1 ha).mpr hg)
      | noBranch h =>
        rw [Statement.collect] at ha
        exact .noBranch fun g hg hholds => h g hg ((holds_guard_override hg ha).mp hholds)
      | iterate hmem hg =>
        rw [Statement.collect] at ha
        exact .iterate hmem ((holds_guard_override (List.of_mem_zip hmem).1 ha).mpr hg)
      | leave h =>
        rw [Statement.collect] at ha
        exact .leave fun g hg hholds => h g hg ((holds_guard_override hg ha).mp hholds)

/-- Other values for names that are not mentioned add no step. -/
theorem Step.of_override (h : Step I (c.override K b) e) (hK : ∀ x ∈ c.mentioned, x ∉ K) :
    ∃ c', e = c'.override K b ∧ Step I c c' := by
  cases c with
  | fault => cases h
  | running ss s =>
    cases ss with
    | nil => cases h
    | cons a ss =>
      have ha : ∀ x ∈ a.collect Assign.mentioned Predicate.freeNames, x ∉ K := fun x hx =>
        hK x (Point.mentioned_cons ▸ List.mem_append_left _ hx)
      -- Guards and assignments do not mention the names in `K`, so the same step is possible
      -- without them.
      cases h with
      | abort => exact ⟨.fault, rfl, .abort⟩
      | skip => exact ⟨.running ss s, rfl, .skip⟩
      | assign h =>
        rw [Statement.collect] at ha
        rw [Assign.run_override ha] at h
        obtain ⟨s', hs', rfl⟩ := Option.map_eq_some_iff.mp h
        exact ⟨.running ss s', rfl, .assign hs'⟩
      | assignFault h =>
        rw [Statement.collect] at ha
        rw [Assign.run_override ha, Option.map_eq_none_iff] at h
        exact ⟨.fault, rfl, .assignFault h⟩
      | branch hmem hg =>
        rw [Statement.collect] at ha
        exact ⟨.running _ s, rfl,
          .branch hmem ((holds_guard_override (List.of_mem_zip hmem).1 ha).mp hg)⟩
      | noBranch h =>
        rw [Statement.collect] at ha
        exact ⟨.fault, rfl,
          .noBranch fun g hg hholds => h g hg ((holds_guard_override hg ha).mpr hholds)⟩
      | iterate hmem hg =>
        rw [Statement.collect] at ha
        exact ⟨.running _ s, rfl,
          .iterate hmem ((holds_guard_override (List.of_mem_zip hmem).1 ha).mp hg)⟩
      | leave h =>
        rw [Statement.collect] at ha
        exact ⟨.running ss s, rfl,
          .leave fun g hg hholds => h g hg ((holds_guard_override hg ha).mpr hholds)⟩

/-- An execution leaves nothing to execute that mentions a further name. -/
theorem Steps.mentioned_subset (h : Steps I c c') : c'.mentioned ⊆ c.mentioned := by
  induction h with
  | refl => exact List.Subset.refl _
  | tail _ hstep ih => exact List.Subset.trans hstep.mentioned_subset ih

/-- Other values for names that are not mentioned do not hinder an execution. -/
theorem Steps.override (h : Steps I c c') (hK : ∀ x ∈ c.mentioned, x ∉ K) :
    Steps I (c.override K b) (c'.override K b) := by
  induction h with
  | refl => exact .refl
  | tail hsteps hstep ih =>
    exact ih.tail (hstep.override fun x hx => hK x (Steps.mentioned_subset hsteps hx))

/-- What a point ensures with other values for names that are not mentioned, it ensures of its own
executions with these values in the end. -/
theorem Ensures.of_override {d : Demand} {R : State → Prop}
    (h : Ensures I d R (c.override K b)) (hK : ∀ x ∈ c.mentioned, x ∉ K) :
    Ensures I d (fun s => R (GuardedCommand.override K b s)) c where
  halts := fun c' hsteps hhalt => by
    have hK' : ∀ x ∈ c'.mentioned, x ∉ K := fun x hx => hK x (hsteps.mentioned_subset hx)
    -- A step with other values for `K` would be one without them.
    have hhalt' : Halted I (c'.override K b) := by
      intro e he
      obtain ⟨c'', -, hstep⟩ := he.of_override hK'
      exact hhalt c'' hstep
    obtain ⟨s, heq, hR⟩ := h.halts _ (hsteps.override hK) hhalt'
    cases c' with
    | fault => cases heq
    | running ss s' =>
      simp only [Point.override, Point.running.injEq] at heq
      obtain ⟨rfl, rfl⟩ := heq
      exact ⟨s', rfl, hR⟩
  ends := fun hd ⟨run, h0, hrun⟩ => by
    have hsteps : ∀ n, Steps I c (run n) := by
      intro n
      induction n with
      | zero => rw [h0]
      | succ n ih => exact ih.tail (hrun n)
    -- An endless execution stays endless with other values for `K`.
    refine h.ends hd ⟨fun n => (run n).override K b, congrArg (·.override K b) h0, fun n => ?_⟩
    exact (hrun n).override fun x hx => hK x ((hsteps n).mentioned_subset hx)

end GuardedCommand
