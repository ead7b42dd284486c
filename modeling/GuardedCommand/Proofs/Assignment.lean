import GuardedCommand.Obligation.Elementary
import GuardedCommand.Proofs.Substitution

/-! # Effect of an assignment

An assignment reads all its selectors and values in the state before it and then writes them, from
left to right, each at the end of the path its target describes.

* `Value.setPath`: writing at the end of a path of indices.
* `Assign.run`: the state after an assignment. There is none if the assignment has not as many
  targets as values, or a modified map among its targets.
* `Target.apply_collect`: the targets of the normal form hold what the writes leave.
* `Assign.holds_wp`: the weakest precondition of an assignment is exact.
-/

namespace GuardedCommand

/-- A value with the element at the end of a path of indices replaced. -/
def Value.setPath : Value → List Int → Value → Value
  | _, [], w => w
  | v, i :: path, w => v.set i ((v.get i).setPath path w)

/-- The name and the indices that a target stands for. -/
def Variable.place (I : Interpretation) (s : State) : Variable → Option (String × List Int)
  | .name x => some (x, [])
  | .select b i => (b.place I s).map fun (x, path) => (x, path ++ [i.eval I s])
  | .store .. => none

/-- Writes to targets, one after the other, what was read in the state `s`. -/
def writeAll (I : Interpretation) (s : State) : List (Variable × Expr) → State → Option State
  | [], s' => some s'
  | (v, e) :: rest, s' =>
    match v.place I s with
    | none => none
    | some (x, path) =>
      writeAll I s rest (Function.update s' x ((s' x).setPath path (e.value I s)))

/-- The state after an assignment. -/
def Assign.run (I : Interpretation) (a : Assign) (s : State) : Option State :=
  if a.lvalues.length = a.rvalues.length then writeAll I s (a.lvalues.zip a.rvalues) s else none

variable {I : Interpretation} {s : State}

/-! ## Targets -/

/-- A target that can be split stands for its name and the values of its selectors. -/
theorem Variable.place_of_splitTarget {v : Variable} {root : String} {selectors : List IntExpr}
    (h : v.splitTarget = .ok (root, selectors)) :
    v.place I s = some (root, selectors.map fun i => i.eval I s) := by
  induction v using Variable.splitTarget.induct generalizing root selectors with
  | case1 x =>
    simp only [Variable.splitTarget] at h
    cases h
    rfl
  | case2 b i ih =>
    simp only [Variable.splitTarget] at h
    obtain ⟨⟨x, path⟩, hb, h⟩ := exists_of_bind_eq_ok h
    cases h
    rw [Variable.place, ih hb, Option.map_some, List.map_append]
    rfl
  | case3 b i e =>
    simp only [Variable.splitTarget] at h
    cases h

/-- The map written along a path of selectors has the new element at the end of the path. -/
theorem value_writeThrough (current : Variable) (selectors : List IntExpr) (value : Expr) :
    (writeThrough current selectors value).value I s =
      (current.value I s).setPath (selectors.map fun i => i.eval I s) (value.value I s) := by
  induction selectors generalizing current with
  | nil => rfl
  | cons i selectors ih =>
    rw [writeThrough, Expr.value, Variable.value, ih, Variable.value]
    rfl

namespace Target

/-- The substitution of their values for the names of targets. -/
def substitution (ts : List Target) : Substitution :=
  ⟨ts.map fun t => (t.name, t.value)⟩

/-- An assignment without targets leaves the state as it is. -/
theorem apply_nil : (substitution []).apply I s = s := rfl

/-- The first target of a name decides about its value. -/
theorem apply_cons (t : Target) (ts : List Target) (y : String) :
    (substitution (t :: ts)).apply I s y =
      if y = t.name then t.value.value I s else (substitution ts).apply I s y := by
  by_cases hy : y = t.name
  · have hl : (substitution (t :: ts)).lookup y = some t.value := by
      simp [Substitution.lookup, substitution, hy]
    rw [if_pos hy, Substitution.apply_of_lookup hl]
  · have hl : (substitution (t :: ts)).lookup y = (substitution ts).lookup y := by
      simp only [Substitution.lookup, substitution, List.map_cons, List.lookup_cons]
      rw [beq_false_of_ne hy]
    rw [if_neg hy]
    simp only [Substitution.apply, hl]

/-- Adding a write to targets writes to the state they stand for. -/
theorem apply_write {root : String} {selectors : List IntExpr} {value : Expr}
    {ts ts' : List Target} (h : write root selectors value ts = .ok ts') :
    (substitution ts').apply I s =
      Function.update ((substitution ts).apply I s) root
        (((substitution ts).apply I s root).setPath (selectors.map fun i => i.eval I s)
          (value.value I s)) := by
  induction ts generalizing ts' with
  | nil =>
    simp only [write] at h
    cases h
    funext y
    rw [apply_cons, apply_nil, value_writeThrough, Variable.value, Function.update_apply]
  | cons t ts ih =>
    simp only [write] at h
    split at h
    · next hroot =>
      -- the name was written before: the new element goes on top of its value
      subst hroot
      split at h
      · cases h
      · split at h
        · cases h
        · next current hcurrent =>
          cases h
          funext y
          rw [apply_cons, apply_cons, Function.update_apply]
          by_cases hy : y = t.name
          · rw [if_pos hy, if_pos hy, if_pos rfl, value_writeThrough,
              Expr.value_of_asVariable hcurrent]
          · rw [if_neg hy, if_neg hy, apply_cons, if_neg hy]
    · next hroot =>
      obtain ⟨us, hus, h⟩ := exists_of_bind_eq_ok h
      cases h
      funext y
      rw [apply_cons, ih hus, apply_cons, if_neg (Ne.symm hroot)]
      by_cases hy : y = t.name
      · rw [if_pos hy, Function.update_of_ne (hy ▸ hroot), apply_cons, if_pos hy]
      · rw [if_neg hy, Function.update_apply, Function.update_apply, apply_cons, if_neg hy]

/-- The targets of a list of writes stand for the state after the writes. -/
theorem apply_collect {writes : List (Variable × Expr)} {ts ts' : List Target}
    (h : collect writes ts = .ok ts') :
    writeAll I s writes ((substitution ts).apply I s) = some ((substitution ts').apply I s) := by
  induction writes generalizing ts with
  | nil =>
    simp only [collect] at h
    cases h
    rfl
  | cons w writes ih =>
    obtain ⟨lvalue, value⟩ := w
    simp only [collect] at h
    obtain ⟨us, hadd, h⟩ := exists_of_bind_eq_ok h
    simp only [add] at hadd
    split at hadd
    · cases hadd
    · next root selectors hsplit =>
      simp only [writeAll, Variable.place_of_splitTarget hsplit]
      rw [← apply_write hadd]
      exact ih h

end Target

/-- The targets of an assignment stand for the state after it. -/
theorem Assign.run_of_targets {a : Assign} {ts : List Target} (h : a.targets = .ok ts) :
    a.run I s = some ((Target.substitution ts).apply I s) := by
  unfold Assign.targets at h
  split at h
  · cases h
  · next hlen =>
    split at h
    · cases h
    · rw [Assign.run, if_pos (not_not.mp hlen)]
      exact Target.apply_collect h

/-! ## Weakest precondition -/

/-- Targets become pairs of names and replacements. -/
theorem Target.mapM_pairs {f : Variable × Expr → Except SubstError (String × Expr)}
    (hf : ∀ x e, f (.name x, e) = .ok (x, e)) (ts : List Target) :
    ((ts.map fun t => Variable.name t.name).zip (ts.map Target.value)).mapM f =
      .ok (ts.map fun t => (t.name, t.value)) := by
  induction ts with
  | nil => rfl
  | cons t ts ih =>
    rw [List.map_cons, List.map_cons, List.zip_cons_cons, List.mapM_cons, ih, hf]
    rfl

/-- Targets that are plain names make up the substitution of their values. -/
theorem Substitution.ofTargets_map (ts : List Target) :
    Substitution.ofTargets (ts.map fun t => .name t.name) (ts.map Target.value) =
      .ok (Target.substitution ts) := by
  rw [Substitution.ofTargets, if_neg (by simp), Target.mapM_pairs fun _ _ => rfl]
  rfl

/-- An assignment leads to `post` exactly from the states in which its weakest precondition holds;
an assignment that has one does not fail. -/
theorem Assign.holds_wp {a : Assign} {post pre : Predicate} (h : a.wp post = .ok pre) (s : State) :
    ∃ s', a.run I s = some s' ∧ (pre.Holds I s ↔ post.Holds I s') := by
  obtain ⟨b, hb, h⟩ := exists_of_bind_eq_ok h
  obtain ⟨σ, hσ, h⟩ := exists_of_bind_eq_ok h
  have hb := eq_ok_of_mapError_eq_ok hb
  have hσ := eq_ok_of_mapError_eq_ok hσ
  have h := eq_ok_of_mapError_eq_ok h
  unfold Assign.normalize at hb
  split at hb
  · cases hb
  · next ts hts =>
    cases hb
    rw [Substitution.ofTargets_map] at hσ
    cases hσ
    exact ⟨_, Assign.run_of_targets hts, Predicate.holds_subst h s⟩

end GuardedCommand
