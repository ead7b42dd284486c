import GuardedCommand.Proofs.Commands
import GuardedCommand.Proofs.Runs

/-! # What loops leave to the rest of a sequence

The bound of a loop is measured on its bodies without the loops inside them. This says something
about the bodies themselves only if the inner loops do not interfere with the rest of the body.

An execution of a sequence is compared with one of the same sequence without its loops. Two sets say
how far the executions may have drifted apart: the names in `D` may have different values, and the
bound may differ through the names in `B` only. Both are followed along every path through the
sequence, from command to command. A loop adds the names that it writes to `D`; so does a choice
whose guards read names in `D`, since the executions may take different branches of it. An
assignment takes a name out of `D` if it computes the name anew from names outside of `D`.

* `Command.seq_induction`: induction on sequences, where a branch of a choice is followed by what
  stands after the choice.
* `Command.exists_runs_of_ensures`: a safe sequence without loops can be executed to its end.
* `Agrees`: the executions have not drifted apart any further.
* `ApartAfter`, `Apart`: the loops of a sequence do not interfere with what the rest does to the
  bound.
* `ApartAfter.exists_runs`: then the execution without loops ends with the same bound.
-/

namespace GuardedCommand

/-- The statement of a loop. -/
def Loop.statement (l : Loop) : Statement :=
  .loop l.guards (Command.eraseBodies l.bodies) l.range

/-- The names that a loop writes. -/
def Loop.assigned (l : Loop) : List String :=
  Statement.assignedSeq [l.statement]

/-- The names that occur free in a loop. -/
def Loop.mentioned (l : Loop) : List String :=
  Statement.mentionedSeq [l.statement]

variable {I : Interpretation} {d : Demand} {R : State → Prop} {D B : Set String} {t : IntExpr}
  {s s' u u' : State}

/-! ## Sequences and their parts -/

namespace Command

/-- To prove something of all sequences it is enough to pass it on from what follows a command, and
for a choice from its branches with what follows behind each of them. -/
theorem seq_induction {P : List Command → Prop} (nil : P [])
    (elementary : ∀ c cs, c.IsElementary → P cs → P (c :: cs))
    (choice : ∀ guards bodies r cs, (∀ b ∈ bodies, P (b ++ cs)) → P (.cond guards bodies r :: cs))
    (loop : ∀ i guards bodies r cs, P cs → P (.loop i guards bodies r :: cs))
    (cs : List Command) : P cs := by
  -- a branch with what follows it has one choice less than the sequence
  induction hw : weightSeq cs using Nat.strong_induction_on generalizing cs with
  | _ w ih =>
    subst hw
    induction cs with
    | nil => exact nil
    | cons c cs ihcs =>
      have hrest : P cs := by
        refine ihcs fun w hw ds hds => ih w ?_ ds hds
        rw [weightSeq_cons]
        omega
      cases c with
      | cond guards bodies r =>
        refine choice guards bodies r cs fun b hb => ih _ ?_ (b ++ cs) rfl
        have hle := weightSeq_le_weightBodies hb
        rw [weightSeq_append, weightSeq_cons, weight]
        omega
      | loop i guards bodies r => exact loop i guards bodies r cs hrest
      | abort r => exact elementary _ cs trivial hrest
      | skip r => exact elementary _ cs trivial hrest
      | assign a => exact elementary _ cs trivial hrest
      | snapshot x e r => exact elementary _ cs trivial hrest

/-- A loop of a branch, or of what follows the choice, is a loop of the whole sequence. -/
theorem mem_nestedLoops_of_branch {guards : List Predicate} {bodies : List (List Command)}
    {r : TextRange} {b cs : List Command} {l : Loop} (hb : b ∈ bodies)
    (hl : l ∈ nestedLoops (b ++ cs)) : l ∈ nestedLoops (.cond guards bodies r :: cs) := by
  rw [nestedLoops_append, List.mem_append] at hl
  rw [nestedLoops_cons, nestedLoop_cond, List.mem_append]
  exact hl.imp_left fun hl => mem_bodyLoops.mpr ⟨b, hb, hl⟩

/-- If a sequence with a choice has no loops, no branch with what follows it has. -/
theorem nestedLoops_eq_nil_of_branch {guards : List Predicate} {bodies : List (List Command)}
    {r : TextRange} {b cs : List Command} (h : nestedLoops (.cond guards bodies r :: cs) = [])
    (hb : b ∈ bodies) : nestedLoops (b ++ cs) = [] := by
  refine List.eq_nil_iff_forall_not_mem.mpr fun l hl => ?_
  have hmem : l ∈ nestedLoops (.cond guards bodies r :: cs) := mem_nestedLoops_of_branch hb hl
  rw [h] at hmem
  cases hmem

/-- Loops are removed from each part of a sequence. -/
@[simp] theorem stripLoops_append (cs ds : List Command) :
    stripLoops (cs ++ ds) = stripLoops cs ++ stripLoops ds := by
  induction cs with
  | nil => simp [stripLoops]
  | cons c cs ih => simp [stripLoops, ih]

/-- A branch of a choice without loops is the branch without loops. -/
theorem mem_zip_stripBodies {guards : List Predicate} {bodies : List (List Command)}
    {g : Predicate} {b : List Command} (h : (g, b) ∈ guards.zip bodies) :
    (g, eraseSeq (stripLoops b)) ∈ guards.zip (eraseBodies (stripBodies bodies)) := by
  have hmap : ∀ bs : List (List Command), stripBodies bs = bs.map stripLoops := by
    intro bs
    induction bs with
    | nil => rw [stripBodies, List.map_nil]
    | cons b bs ih => rw [stripBodies, List.map_cons, ih]
  refine mem_zip_eraseBodies.mpr ⟨stripLoops b, ?_, rfl⟩
  rw [hmap, List.zip_map_right]
  exact List.mem_map.mpr ⟨(g, b), h, rfl⟩

section Strip

variable {ofAssign : Assign → List String} {ofGuard : Predicate → List String}

mutual

/-- Nothing new is collected from a command without its loops. -/
theorem collectSeq_stripLoop_subset : ∀ c : Command,
    Statement.collectSeq ofAssign ofGuard (eraseSeq c.stripLoop) ⊆
      c.erase.collect ofAssign ofGuard
  | .loop .. => by
    rw [stripLoop, eraseSeq_nil, Statement.collectSeq_nil]
    exact List.nil_subset _
  | .cond guards bodies r => by
    intro x hx
    simp only [stripLoop, eraseSeq_cons, eraseSeq_nil, erase, Statement.collectSeq_cons,
      Statement.collectSeq_nil, Statement.collect, List.append_nil, List.mem_append] at hx ⊢
    rcases hx with hx | hx
    · exact .inl hx
    · exact .inr (collectBodies_stripBodies_subset bodies hx)
  | .abort _ | .skip _ | .assign _ | .snapshot .. => by
    simp [stripLoop]

/-- Nothing new is collected from a sequence without its loops. -/
theorem collectSeq_stripLoops_subset : ∀ cs : List Command,
    Statement.collectSeq ofAssign ofGuard (eraseSeq (stripLoops cs)) ⊆
      Statement.collectSeq ofAssign ofGuard (eraseSeq cs)
  | [] => by simp [stripLoops]
  | c :: cs => by
    intro x hx
    rw [stripLoops, eraseSeq_append, Statement.collectSeq_append, List.mem_append] at hx
    rw [eraseSeq_cons, Statement.collectSeq_cons, List.mem_append]
    rcases hx with hx | hx
    · exact .inl (collectSeq_stripLoop_subset c hx)
    · exact .inr (collectSeq_stripLoops_subset cs hx)

/-- Nothing new is collected from bodies without their loops. -/
theorem collectBodies_stripBodies_subset : ∀ bs : List (List Command),
    Statement.collectBodies ofAssign ofGuard (eraseBodies (stripBodies bs)) ⊆
      Statement.collectBodies ofAssign ofGuard (eraseBodies bs)
  | [] => by simp [stripBodies]
  | b :: bs => by
    intro x hx
    rw [stripBodies, eraseBodies, Statement.collectBodies, List.mem_append] at hx
    rw [eraseBodies, Statement.collectBodies, List.mem_append]
    rcases hx with hx | hx
    · exact .inl (collectSeq_stripLoops_subset b hx)
    · exact .inr (collectBodies_stripBodies_subset bs hx)

end

end Strip

/-- A sequence without loops that cannot fail can be executed to its end. -/
theorem exists_runs_of_ensures (cs : List Command) (hloops : nestedLoops cs = [])
    (h : Ensures I d R (.running (eraseSeq cs) s)) : ∃ s', Runs I (eraseSeq cs) s s' := by
  induction cs using seq_induction generalizing s with
  | nil => exact ⟨s, .refl⟩
  | elementary c cs hc ih =>
    rw [nestedLoops_cons, List.append_eq_nil_iff] at hloops
    rw [eraseSeq_cons] at h ⊢
    -- an elementary command that does not fail takes one step
    obtain ⟨⟨c', hstep⟩, hnext⟩ := ensures_cons.mp h
    cases c' with
    | fault => exact absurd (hnext _ hstep) not_ensures_fault
    | running ss s₁ =>
      have hss : ss = eraseSeq cs := by
        cases c with
        | abort r =>
          rw [erase] at hstep
          cases hstep
        | skip | assign | snapshot =>
          rw [erase] at hstep
          cases hstep
          rfl
        | cond | loop => exact hc.elim
      subst hss
      obtain ⟨s', hrun⟩ := ih hloops.2 (hnext _ hstep)
      exact ⟨s', Relation.ReflTransGen.head hstep hrun⟩
  | choice guards bodies r cs ih =>
    rw [eraseSeq_cons, erase] at h ⊢
    obtain ⟨⟨c', hstep⟩, hnext⟩ := ensures_cons.mp h
    have hc' := hnext c' hstep
    cases hstep with
    | noBranch _ => exact absurd hc' not_ensures_fault
    | branch hmem hg =>
      obtain ⟨b, hb, rfl⟩ := mem_zip_eraseBodies.mp hmem
      rw [← eraseSeq_append] at hc'
      have hbody := (List.of_mem_zip hb).2
      obtain ⟨s', hrun⟩ := ih b hbody (nestedLoops_eq_nil_of_branch hloops hbody) hc'
      rw [eraseSeq_append] at hrun
      exact ⟨s', Relation.ReflTransGen.head (.branch hmem hg) hrun⟩
  | loop i guards bodies r cs _ =>
    rw [nestedLoops_cons, nestedLoop_loop] at hloops
    cases hloops

end Command

/-! ## Assignments in states that agree -/

/-- The names that may differ after an assignment, if those in `D` may differ before it: names that
it computes from names in `D`, and names in `D` that it does not overwrite as a whole. -/
def Assign.spread (D : Set String) (a : Assign) : Set String :=
  {x | (x ∈ D ∧ ∀ e, (.name x, e) ∉ a.lvalues.zip a.rvalues) ∨
    ∃ v e, (v, e) ∈ a.lvalues.zip a.rvalues ∧ v.root = x ∧
      ((∃ y ∈ v.freeNames, v ≠ .name y ∧ y ∈ D) ∨ ∃ y ∈ e.freeNames, y ∈ D)}

/-- Where no name differs, an assignment makes none differ. -/
@[simp] theorem Assign.spread_empty (a : Assign) : a.spread ∅ = ∅ := by
  simp [Assign.spread]

/-- In another state a target is placed at the same name, and at the same path if the states agree
on what the selectors of the target read. -/
theorem Variable.exists_place {v : Variable} {x : String} {path : List Int}
    (h : v.place I s = some (x, path)) :
    ∃ path', v.place I u = some (x, path') ∧
      ((∀ y ∈ v.freeNames, v ≠ .name y → s y = u y) → path' = path) := by
  induction v using Variable.root.induct generalizing path with
  | case1 y =>
    obtain ⟨rfl, rfl⟩ : y = x ∧ [] = path := by simpa [Variable.place] using h
    exact ⟨[], rfl, fun _ => rfl⟩
  | case2 v i ih =>
    obtain ⟨⟨y, path₁⟩, hv, heq⟩ := Option.map_eq_some_iff.mp h
    obtain ⟨rfl, rfl⟩ : y = x ∧ path₁ ++ [i.eval I s] = path := by simpa using heq
    obtain ⟨path₂, hv', hpath⟩ := ih hv
    refine ⟨path₂ ++ [i.eval I u], by rw [Variable.place, hv', Option.map_some], fun hy => ?_⟩
    have hleft : path₂ = path₁ := hpath fun y hmem _ =>
      hy y (List.mem_append_left _ hmem) Variable.noConfusion
    have hright : i.eval I s = i.eval I u :=
      IntExpr.eval_congr (m := .free) i fun y hmem =>
        hy y (List.mem_append_right _ hmem) Variable.noConfusion
    rw [hleft, hright]
  | case3 v i e => cases h

/-- Writes in two states that agree outside of `D`. A name has the same value after them if it has
so before, or is overwritten as a whole, and nothing that is written to it is read from `D`. -/
theorem exists_writeAll_of_agree {writes : List (Variable × Expr)} {w w' z : State}
    (h : writeAll I s writes w = some w') (hsu : ∀ x ∉ D, s x = u x) :
    ∃ z', writeAll I u writes z = some z' ∧
      ∀ x, (w x = z x ∨ ∃ e, (.name x, e) ∈ writes) →
        (∀ v e, (v, e) ∈ writes → v.root = x →
          (∀ y ∈ v.freeNames, v ≠ .name y → y ∉ D) ∧ ∀ y ∈ e.freeNames, y ∉ D) →
        w' x = z' x := by
  induction writes generalizing w z with
  | nil =>
    cases h
    refine ⟨z, rfl, fun x hx _ => ?_⟩
    rcases hx with hx | ⟨e, he⟩
    · exact hx
    · cases he
  | cons write writes ih =>
    obtain ⟨v, e⟩ := write
    rw [writeAll] at h
    split at h
    · cases h
    · next y path hplace =>
      obtain ⟨path', hplace', hpath⟩ := Variable.exists_place (u := u) hplace
      have hroot : v.root = y := (Variable.root_of_place hplace).1.symm
      rw [writeAll, hplace']
      obtain ⟨z', hz', heq⟩ :=
        ih (z := Function.update z y ((z y).setPath path' (e.value I u))) h
      refine ⟨z', hz', fun x hx hreads => heq x ?_ fun v e hmem =>
        hreads v e (List.mem_cons_of_mem _ hmem)⟩
      by_cases hxy : x = y
      · -- path and value are the same in both states
        subst hxy
        obtain ⟨hselectors, hvalues⟩ := hreads v e List.mem_cons_self hroot
        have hpath' : path' = path := hpath fun y hy hne => hsu y (hselectors y hy hne)
        have hvalue : e.value I s = e.value I u :=
          Expr.value_congr (m := .free) e fun y hy => hsu y (hvalues y hy)
        rw [Function.update_self, Function.update_self, hpath', ← hvalue]
        rcases hx with hx | ⟨e', he'⟩
        · exact .inl (by rw [hx])
        · rcases List.mem_cons.mp he' with heq | he'
          · -- nothing is left of the old value
            cases heq
            cases hplace
            exact .inl rfl
          · exact .inr ⟨e', he'⟩
      · rw [Function.update_of_ne hxy, Function.update_of_ne hxy]
        rcases hx with hx | ⟨e', he'⟩
        · exact .inl hx
        · rcases List.mem_cons.mp he' with heq | he'
          · cases heq
            exact absurd hroot hxy
          · exact .inr ⟨e', he'⟩

/-- An assignment can be executed in every state that agrees outside of `D`, and the states after it
agree outside of the names that it spreads `D` to. -/
theorem Assign.exists_run_of_agree {a : Assign} (h : a.run I s = some s')
    (hsu : ∀ x ∉ D, s x = u x) :
    ∃ u', a.run I u = some u' ∧ ∀ x ∉ a.spread D, s' x = u' x := by
  unfold Assign.run at h ⊢
  split at h
  · next hlen =>
    rw [if_pos hlen]
    obtain ⟨u', hu', heq⟩ := exists_writeAll_of_agree (z := u) h hsu
    refine ⟨u', hu', fun x hx => heq x ?_ fun v e hmem hroot => ⟨fun y hy hne hD => ?_,
      fun y hy hD => ?_⟩⟩
    · by_contra hnone
      rw [not_or, not_exists] at hnone
      exact hx (.inl ⟨by_contra fun hD => hnone.1 (hsu x hD), hnone.2⟩)
    · exact hx (.inr ⟨v, e, hmem, hroot, .inl ⟨y, hy, hne, hD⟩⟩)
    · exact hx (.inr ⟨v, e, hmem, hroot, .inr ⟨y, hy, hD⟩⟩)
  · cases h

/-! ## Executions side by side -/

/-- The states have the same values outside of `D`, and the bound `t` is the same in both, whatever
the values of the names in `B`. -/
structure Agrees (I : Interpretation) (D B : Set String) (t : IntExpr) (s u : State) : Prop where
  /-- The names outside of `D` have the same values. -/
  names : ∀ x ∉ D, s x = u x
  /-- The bound is the same. -/
  bound : ∀ b, t.eval I (override B b s) = t.eval I (override B b u)

/-- A state agrees with itself. -/
theorem Agrees.refl (s : State) : Agrees I D B t s s :=
  ⟨fun _ _ => rfl, fun _ => rfl⟩

/-- States that differ in names of `B` only, as far as the bound is concerned, have the same bound
whatever the values of these names. -/
theorem eval_override_of_eq (h : ∀ x ∈ t.freeNames, x ∉ B → s x = u x) (b : State) :
    t.eval I (override B b s) = t.eval I (override B b u) := by
  refine IntExpr.eval_congr (m := .free) t fun x hx => ?_
  by_cases hB : x ∈ B
  · rw [override_of_mem hB, override_of_mem hB]
  · rw [override_of_notMem hB, override_of_notMem hB, h x hx hB]

namespace Agrees

variable {B' W : Set String}

/-- If the bound is the same whatever the values of some names, and some of these are the same, it
is the same whatever the values of the others. -/
theorem narrow (h : Agrees I D B t s u) (hB : B' ⊆ B)
    (hD : ∀ x ∈ t.freeNames, x ∈ B → x ∉ B' → x ∉ D) : Agrees I D B' t s u := by
  refine ⟨h.names, fun b => ?_⟩
  -- the names that are no longer excepted are given the values that they have in both states
  have hs : t.eval I (override B' b s) = t.eval I (override B (override B' b s) s) := by
    refine IntExpr.eval_congr (m := .free) t fun x _ => ?_
    by_cases hx : x ∈ B
    · rw [override_of_mem hx]
    · rw [override_of_notMem hx, override_of_notMem fun hx' => hx (hB hx')]
  have hu : t.eval I (override B (override B' b s) u) = t.eval I (override B' b u) := by
    refine IntExpr.eval_congr (m := .free) t fun x hmem => ?_
    by_cases hx' : x ∈ B'
    · rw [override_of_mem (hB hx'), override_of_mem hx', override_of_mem hx']
    · rw [override_of_notMem (b := b) (s := u) hx']
      by_cases hx : x ∈ B
      · rw [override_of_mem hx, override_of_notMem hx', h.names x (hD x hmem hx hx')]
      · rw [override_of_notMem hx]
  rw [hs, h.bound, hu]

/-- The bound is the same whatever the values of some names, if all others in it are the same. -/
theorem reset (h : Agrees I D B t s u) (hD : ∀ x ∈ t.freeNames, x ∉ B' → x ∉ D) :
    Agrees I D B' t s u :=
  ⟨h.names, eval_override_of_eq fun x hx hB => h.names x (hD x hx hB)⟩

/-- If the bound is the same whatever the values of no names, it is the same. -/
theorem eval_eq (h : Agrees I D ∅ t s u) : t.eval I s = t.eval I u := by
  have hempty : ∀ w : State, override ∅ s w = w :=
    fun w => funext fun x => override_of_notMem (Set.notMem_empty x)
  have hbound := h.bound s
  rwa [hempty, hempty] at hbound

/-- An assignment that writes to the bound in `B` only leads from states that agree to states that
agree. -/
theorem exists_run {a : Assign} (h : Agrees I D B t s u) (hrun : a.run I s = some s')
    (hB : ∀ x ∈ t.freeNames, x ∈ a.assigned → x ∈ B) :
    ∃ u', a.run I u = some u' ∧ Agrees I (a.spread D) B t s' u' := by
  obtain ⟨u', hrun', hnames⟩ := Assign.exists_run_of_agree hrun h.names
  refine ⟨u', hrun', hnames, fun b => ?_⟩
  -- outside of `B` the assignment does not touch the bound, in either execution
  have hs : t.eval I (override B b s') = t.eval I (override B b s) :=
    eval_override_of_eq (fun x hx hxB => Assign.run_eq_of_notMem hrun fun ha => hxB (hB x hx ha)) b
  have hu : t.eval I (override B b u) = t.eval I (override B b u') :=
    eval_override_of_eq
      (fun x hx hxB => (Assign.run_eq_of_notMem hrun' fun ha => hxB (hB x hx ha)).symm) b
  rw [hs, h.bound b, hu]

/-- Executions that write names in `W` only and keep the bound, whatever the values of the names in
`B`, lead from states that agree to states that agree outside of `W`. -/
theorem of_frame (h : Agrees I D B t s u) (hs : ∀ x ∉ W, s' x = s x) (hu : ∀ x ∉ W, u' x = u x)
    (hsB : ∀ b, t.eval I (override B b s) = t.eval I (override B b s'))
    (huB : ∀ b, t.eval I (override B b u) = t.eval I (override B b u')) :
    Agrees I (D ∪ W) B t s' u' := by
  constructor
  · intro x hx
    rw [hs x fun hW => hx (.inr hW), hu x fun hW => hx (.inr hW)]
    exact h.names x fun hD => hx (.inl hD)
  · intro b
    rw [← hsB, h.bound, huB]

end Agrees

/-- Executions of the loop leave the bound alone, whatever the values of the names in `B`. -/
def Loop.KeepsBound (I : Interpretation) (B : Set String) (t : IntExpr) (l : Loop) : Prop :=
  ∀ s s', Runs I [l.statement] s s' → ∀ b, t.eval I (override B b s) = t.eval I (override B b s')

/-- If the loops of a sequence leave the bound alone, whatever the values of the names in `B`, and
nothing but these is written to the bound outside of the loops, all executions leave it alone. -/
theorem Command.eval_override_of_runs (cs : List Command)
    (hB : ∀ x ∈ t.freeNames, x ∈ Statement.assignedSeq (eraseSeq (stripLoops cs)) → x ∈ B)
    (hloops : ∀ l ∈ nestedLoops cs, l.KeepsBound I B t) (hrun : Runs I (eraseSeq cs) s s')
    (b : State) : t.eval I (override B b s) = t.eval I (override B b s') := by
  induction cs using seq_induction generalizing s with
  | nil =>
    rw [eraseSeq_nil, runs_nil] at hrun
    rw [hrun]
  | elementary c cs hc ih =>
    rw [nestedLoops_cons, List.forall_mem_append] at hloops
    rw [eraseSeq_cons, runs_cons] at hrun
    obtain ⟨s₁, hfirst, hrest⟩ := hrun
    have hstrip : c.stripLoop = [c] := by
      cases c with
      | abort | skip | assign | snapshot => rw [stripLoop]
      | cond | loop => exact hc.elim
    simp only [stripLoops, hstrip, eraseSeq_append, eraseSeq_cons, eraseSeq_nil,
      Statement.assignedSeq, Statement.collectSeq_append, List.mem_append] at hB
    rw [← ih (fun x hx ha => hB x hx (.inr ha)) hloops.2 hrest]
    -- a name of the bound that is not in `B` is not written
    refine eval_override_of_eq (fun x hx hxB => ?_) b
    exact (hfirst.eq_of_notMem_assigned fun ha => hxB (hB x hx (.inl ha))).symm
  | choice guards bodies r cs ih =>
    rw [eraseSeq_cons, erase, runs_cons] at hrun
    obtain ⟨s₁, hbranch, hrest⟩ := hrun
    obtain ⟨g, ss, hmem, -, hbody⟩ := runs_cond.mp hbranch
    obtain ⟨body, hbody', rfl⟩ := mem_zip_eraseBodies.mp hmem
    have hb := (List.of_mem_zip hbody').2
    refine ih body hb (fun x hx ha => hB x hx ?_)
      (fun l hl => hloops l (mem_nestedLoops_of_branch hb hl)) ?_
    · simp only [stripLoops_append, eraseSeq_append, Statement.assignedSeq,
        Statement.collectSeq_append, List.mem_append] at ha
      simp only [stripLoops, stripLoop, eraseSeq_append, Statement.assignedSeq,
        Statement.collectSeq_append, List.mem_append]
      refine ha.imp_left fun ha => ?_
      have hstripped := (List.of_mem_zip (mem_zip_stripBodies hbody')).2
      simp only [eraseSeq_cons, eraseSeq_nil, erase, Statement.collectSeq_cons,
        Statement.collectSeq_nil, Statement.collect, List.append_nil]
      exact List.mem_append_right _ (Statement.mem_collectBodies.mpr ⟨_, hstripped, ha⟩)
    · rw [eraseSeq_append]
      exact runs_append.mpr ⟨s₁, hbody, hrest⟩
  | loop i guards bodies r cs ih =>
    rw [nestedLoops_cons, nestedLoop_loop, List.cons_append, List.forall_mem_cons,
      List.forall_mem_append] at hloops
    rw [eraseSeq_cons, runs_cons] at hrun
    obtain ⟨s₁, hfirst, hrest⟩ := hrun
    rw [erase] at hfirst
    rw [hloops.1 s s₁ hfirst b]
    refine ih (fun x hx ha => hB x hx ?_) hloops.2.2 hrest
    rwa [stripLoops, stripLoop, List.nil_append]

/-- A command that writes to the bound in `B` only, apart from loops that leave the bound alone, can
be executed without its loops, in one way or another, and the states after it agree apart from what
the command writes. -/
theorem Agrees.exists_runs_stripLoop {c : Command} (h : Agrees I D B t s u)
    (hB : ∀ x ∈ t.freeNames, x ∈ Statement.assignedSeq (Command.eraseSeq c.stripLoop) → x ∈ B)
    (hloops : ∀ l ∈ c.nestedLoop, l.KeepsBound I B t) (hrun : Runs I [c.erase] s s')
    (hsafe : Ensures I d R (.running (Command.eraseSeq c.stripLoop) u)) :
    ∃ u', Runs I (Command.eraseSeq c.stripLoop) u u' ∧
      Agrees I (D ∪ {x | x ∈ Statement.assignedSeq [c.erase]}) B t s' u' := by
  obtain ⟨u', hrun'⟩ :=
    Command.exists_runs_of_ensures c.stripLoop (Command.nestedLoops_stripLoop c) hsafe
  have hassigned : ∀ x ∈ Statement.assignedSeq (Command.eraseSeq c.stripLoop),
      x ∈ Statement.assignedSeq [c.erase] := by
    intro x hx
    rw [Statement.assignedSeq, Statement.collectSeq_cons]
    exact List.mem_append_left _ (Command.collectSeq_stripLoop_subset c hx)
  refine ⟨u', hrun', h.of_frame (fun x hx => hrun.eq_of_notMem_assigned hx)
    (fun x hx => hrun'.eq_of_notMem_assigned fun ha => hx (hassigned x ha)) ?_ ?_⟩
  · exact Command.eval_override_of_runs [c] (by simpa [Command.stripLoops] using hB)
      (by simpa using hloops) (by simpa using hrun)
  · exact eval_override_of_eq fun x hx hxB =>
      (hrun'.eq_of_notMem_assigned fun ha => hxB (hB x hx ha)).symm

/-! ## Loops that do not interfere with a bound -/

/-- The loop writes a name of the bound `t`. -/
def Loop.Writes (l : Loop) (t : IntExpr) : Prop :=
  ∃ x ∈ t.freeNames, x ∈ l.assigned

/-- The loops of a sequence do not interfere with what the rest of the sequence does to the bound
`t`, after a start where the names in `D` may already differ from an execution without loops, and
the bound may differ through the names in `B`. -/
inductive ApartAfter (t : IntExpr) : Set String → Set String → List Command → Prop where
  /-- In the end the bound does not differ. -/
  | nil {D : Set String} : ApartAfter t D ∅ []
  /-- Names of the bound that do not differ need not be excepted any more. -/
  | narrow {D B B' : Set String} {cs} (hB : B' ⊆ B)
    (hD : ∀ x ∈ t.freeNames, x ∈ B → x ∉ B' → x ∉ D) (rest : ApartAfter t D B' cs) :
    ApartAfter t D B cs
  /-- If the other names of the bound do not differ, any names can be excepted. -/
  | reset {D B B' : Set String} {cs} (hD : ∀ x ∈ t.freeNames, x ∉ B' → x ∉ D)
    (rest : ApartAfter t D B' cs) : ApartAfter t D B cs
  /-- An assignment writes to the bound in `B` only. -/
  | assign {D B : Set String} {c a cs} (hc : c.erase = .assign a)
    (hB : ∀ x ∈ t.freeNames, x ∈ a.assigned → x ∈ B)
    (rest : ApartAfter t (a.spread D) B cs) : ApartAfter t D B (c :: cs)
  /-- Where the guards of a choice do not differ, the executions take the same branch. -/
  | choice {D B : Set String} {guards bodies r cs}
    (hguards : ∀ g ∈ guards, ∀ x ∈ g.freeNames, x ∉ D)
    (branches : ∀ g b, (g, b) ∈ guards.zip bodies → ApartAfter t D B (b ++ cs)) :
    ApartAfter t D B (.cond guards bodies r :: cs)
  /-- Any command may be executed differently, if it writes to the bound in `B` only, and the loops
  in it that write to the bound mention no name in `B` and keep the bound by the same argument. -/
  | differ {D B : Set String} {c cs}
    (hB : ∀ x ∈ t.freeNames, x ∈ Statement.assignedSeq (Command.eraseSeq c.stripLoop) → x ∈ B)
    (hloops : ∀ l ∈ c.nestedLoop, l.Writes t → ∀ x ∈ l.mentioned, x ∉ B)
    (inner : ∀ l ∈ c.nestedLoop, l.Writes t → ∀ g b, (g, b) ∈ l.guards.zip l.bodies →
      ApartAfter t ∅ Set.univ b)
    (rest : ApartAfter t (D ∪ {x | x ∈ Statement.assignedSeq [c.erase]}) B cs) :
    ApartAfter t D B (c :: cs)

/-- The loops of a sequence do not interfere with what the rest of the sequence does to the bound
`t`. -/
def Apart (t : IntExpr) (cs : List Command) : Prop :=
  ApartAfter t ∅ Set.univ cs

/-- A sequence without loops has nothing to be apart from. -/
theorem Apart.of_nestedLoops {cs : List Command} (h : Command.nestedLoops cs = []) :
    Apart t cs := by
  unfold Apart
  -- Without loops no name ever differs, so all names of the bound may be excepted to the end.
  induction cs using Command.seq_induction with
  | nil => exact .reset (fun _ _ _ => Set.notMem_empty _) .nil
  | elementary c cs hc ih =>
    rw [Command.nestedLoops_cons, List.append_eq_nil_iff] at h
    have hassign : ∀ a : Assign, c.erase = .assign a → ApartAfter t ∅ Set.univ (c :: cs) := by
      intro a ha
      refine .assign ha (fun _ _ _ => Set.mem_univ _) ?_
      rw [Assign.spread_empty]
      exact ih h.2
    have hnothing : c.erase.collect Assign.assigned (fun _ => []) = [] →
        ApartAfter t ∅ Set.univ (c :: cs) := by
      intro hc
      refine .differ (fun _ _ _ => Set.mem_univ _) (by simp [h.1]) (by simp [h.1]) ?_
      simpa [hc] using ih h.2
    cases c with
    | abort | skip => exact hnothing rfl
    | assign | snapshot => exact hassign _ rfl
    | cond | loop => exact hc.elim
  | choice guards bodies r cs ih =>
    refine .choice (fun _ _ _ _ => Set.notMem_empty _) fun g b hmem => ?_
    have hb := (List.of_mem_zip hmem).2
    exact ih b hb (Command.nestedLoops_eq_nil_of_branch h hb)
  | loop i guards bodies r cs _ =>
    rw [Command.nestedLoops_cons, Command.nestedLoop_loop] at h
    cases h

/-- A loop whose branches keep the bound keeps it, and does so for all values of names that it does
not mention. -/
theorem Loop.keepsBound_of_branches {l : Loop} (hB : ∀ x ∈ l.mentioned, x ∉ B)
    (hbranches : ∀ g b, (g, b) ∈ l.guards.zip l.bodies → ∀ s s', Runs I (Command.eraseSeq b) s s' →
      t.eval I s' = t.eval I s) : l.KeepsBound I B t := by
  intro s s' hrun b
  have hkeep : ∀ u u', Relation.ReflTransGen
      (Iterates I l.guards (Command.eraseBodies l.bodies)) u u' → t.eval I u = t.eval I u' := by
    intro u u' hiter
    -- one iteration after the other
    induction hiter with
    | refl => rfl
    | tail _ hstep ih =>
      obtain ⟨g, body, hmem, -, hbody⟩ := hstep
      obtain ⟨cs, hcs, rfl⟩ := Command.mem_zip_eraseBodies.mp hmem
      rw [ih, hbranches g cs hcs _ _ hbody]
  exact hkeep _ _ (runs_loop.mp (hrun.override hB)).1

/-- A loop that does not write to the bound keeps it. -/
theorem Loop.keepsBound_of_not_writes {l : Loop} (h : ¬ l.Writes t) : l.KeepsBound I B t := by
  intro s s' hrun b
  refine eval_override_of_eq (fun x hx _ => ?_) b
  exact (hrun.eq_of_notMem_assigned fun ha => h ⟨x, hx, ha⟩).symm

/-- The bodies of the loops of a sequence, without the loops inside them, cannot fail and keep the
bound. -/
def BodiesKeep (I : Interpretation) (t : IntExpr) (cs : List Command) : Prop :=
  ∀ l ∈ Command.nestedLoops cs, ∀ b ∈ l.bodies, ∀ s,
    Ensures I .safe (fun s' => t.eval I s' = t.eval I s)
      (.running (Command.eraseSeq (Command.stripLoops b)) s)

/-- Bodies keep the bound in every part of a sequence in which they do. -/
theorem BodiesKeep.mono {cs ds : List Command} (h : BodiesKeep I t cs)
    (hsub : ∀ l ∈ Command.nestedLoops ds, l ∈ Command.nestedLoops cs) : BodiesKeep I t ds :=
  fun l hl => h l (hsub l hl)

/-- If the loops of a sequence do not interfere with the bound, and their bodies without loops keep
it, an execution of the sequence ends with the same bound as one without loops, from states that
agree as far as is known. -/
theorem ApartAfter.exists_runs {cs : List Command} (h : ApartAfter t D B cs)
    (hkeep : BodiesKeep I t cs) (hagrees : Agrees I D B t s u)
    (hrun : Runs I (Command.eraseSeq cs) s s')
    (hsafe : Ensures I .safe (fun _ => True)
      (.running (Command.eraseSeq (Command.stripLoops cs)) u)) :
    ∃ u', Runs I (Command.eraseSeq (Command.stripLoops cs)) u u' ∧
      t.eval I u' = t.eval I s' := by
  induction h generalizing s s' u with
  | nil =>
    rw [Command.eraseSeq_nil, runs_nil] at hrun
    subst hrun
    exact ⟨u, by rw [Command.stripLoops, Command.eraseSeq_nil, runs_nil], hagrees.eval_eq.symm⟩
  | narrow hB hD _ ih => exact ih hkeep (hagrees.narrow hB hD) hrun hsafe
  | reset hD _ ih => exact ih hkeep (hagrees.reset hD) hrun hsafe
  | @assign D B c a cs hc hB _ ih =>
    have hstrip : Command.eraseSeq (Command.stripLoops (c :: cs)) =
        .assign a :: Command.eraseSeq (Command.stripLoops cs) := by
      cases c with
      | assign | snapshot => simp [Command.stripLoops, Command.stripLoop, hc]
      | abort | skip | cond | loop => cases hc
    rw [Command.eraseSeq_cons, hc, runs_cons] at hrun
    rw [hstrip] at hsafe ⊢
    obtain ⟨s₁, hfirst, hrest⟩ := hrun
    obtain ⟨u₁, hfirst', hagrees'⟩ := hagrees.exists_run (runs_assign.mp hfirst) hB
    obtain ⟨u', hrest', heq⟩ := ih (hkeep.mono fun l hl => List.mem_append_right _ hl) hagrees'
      hrest (hsafe.step (.assign hfirst'))
    exact ⟨u', runs_cons.mpr ⟨u₁, runs_assign.mpr hfirst', hrest'⟩, heq⟩
  | @choice D B guards bodies r cs hguards _ ih =>
    rw [Command.eraseSeq_cons, Command.erase, runs_cons] at hrun
    obtain ⟨s₁, hbranch, hrest⟩ := hrun
    obtain ⟨g, ss, hmem, hg, hbody⟩ := runs_cond.mp hbranch
    obtain ⟨b, hb, rfl⟩ := Command.mem_zip_eraseBodies.mp hmem
    -- the guard holds in both states, and the other execution takes the same branch
    have hg' : g.Holds I u := (Predicate.holds_congr (m := .free) g fun x hx =>
      hagrees.names x (hguards g (List.of_mem_zip hb).1 x hx)).mp hg
    have hstep : Step I
        (.running (Command.eraseSeq (Command.stripLoops (.cond guards bodies r :: cs))) u)
        (.running (Command.eraseSeq (Command.stripLoops (b ++ cs))) u) := by
      rw [Command.stripLoops, Command.stripLoop, Command.eraseSeq_append,
        Command.stripLoops_append, Command.eraseSeq_append]
      exact .branch (Command.mem_zip_stripBodies hb) hg'
    obtain ⟨u', hrun', heq⟩ := ih g b hb
      (hkeep.mono fun l hl => Command.mem_nestedLoops_of_branch (List.of_mem_zip hb).2 hl) hagrees
      (by rw [Command.eraseSeq_append]; exact runs_append.mpr ⟨s₁, hbody, hrest⟩)
      (hsafe.step hstep)
    exact ⟨u', Relation.ReflTransGen.head hstep hrun', heq⟩
  | @differ D B c cs hB hloops _ _ ihinner ih =>
    have hmem : ∀ l ∈ c.nestedLoop, l ∈ Command.nestedLoops (c :: cs) :=
      fun l hl => List.mem_append_left _ hl
    have hkeeps : ∀ l ∈ c.nestedLoop, l.KeepsBound I B t := by
      intro l hl
      by_cases hwrites : l.Writes t
      · refine Loop.keepsBound_of_branches (hloops l hl hwrites) fun g b hb w w' hbody => ?_
        have hbody' := (List.of_mem_zip hb).2
        have hw := hkeep l (hmem l hl) b hbody' w
        -- the body keeps the bound as it does without the loops inside it
        obtain ⟨v, hv, heq⟩ := ihinner l hl hwrites g b hb
          (hkeep.mono fun m hm => Command.mem_nestedLoops_of_mem_body (hmem l hl) hbody' hm)
          (Agrees.refl w) hbody (hw.mono fun _ _ => trivial)
        rw [← heq, ensures_nil.mp (hw.steps hv)]
      · exact Loop.keepsBound_of_not_writes hwrites
    rw [Command.stripLoops, Command.eraseSeq_append] at hsafe ⊢
    rw [Command.eraseSeq_cons, runs_cons] at hrun
    obtain ⟨s₁, hfirst, hrest⟩ := hrun
    have hsafe' := ensures_append.mp hsafe
    obtain ⟨u₁, hfirst', hagrees'⟩ := hagrees.exists_runs_stripLoop hB hkeeps hfirst hsafe'
    obtain ⟨u', hrest', heq⟩ := ih (hkeep.mono fun l hl => List.mem_append_right _ hl) hagrees'
      hrest (ensures_nil.mp (hsafe'.steps hfirst'))
    exact ⟨u', runs_append.mpr ⟨u₁, hfirst', hrest'⟩, heq⟩

end GuardedCommand
