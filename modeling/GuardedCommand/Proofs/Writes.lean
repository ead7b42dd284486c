import GuardedCommand.Proofs.Targets

/-! # Writes to elements of maps

A target stands for a place: a name and a path of indices. Writing at a place changes what is read
there and leaves alone what is read at places apart from it, so that writes to places apart can be
exchanged.

* `Place`, `Place.Apart`: names with paths, and when neither of two lies inside the other.
* `readAt`, `writeAt`: the value at a place of a state, and the state with another value there.
* `writeAt_comm`, `writeAll_perm`: the order of writes does not matter at places apart.
* `Assign.holds_iff_of_wp`: the weakest precondition of an assignment is exact, and the assignment
  changes what its targets stand for and nothing else.
* `Assign.normalize_perm`: the order of targets does not matter to the normal form.
-/

namespace GuardedCommand

/-! ## Paths in a value -/

namespace Value

/-- The element at the end of a path of indices. -/
def getPath : Value → List Int → Value
  | v, [] => v
  | v, i :: path => (v.get i).getPath path

/-- Of two replacements of one element the second counts. -/
theorem set_set_self (v : Value) (i : Int) (w u : Value) : (v.set i w).set i u = v.set i u := by
  show Value.map (Function.update (Function.update v.get i w) i u) = _
  rw [Function.update_idem]
  rfl

/-- Replacements of two elements can be made in either order. -/
theorem set_set_comm (v : Value) {i j : Int} (h : i ≠ j) (w u : Value) :
    (v.set i w).set j u = (v.set j u).set i w := by
  show Value.map (Function.update (Function.update v.get i w) j u) =
    Value.map (Function.update (Function.update v.get j u) i w)
  rw [Function.update_comm h]

/-- The element at a path, after it was replaced, is the new one. -/
@[simp] theorem getPath_setPath_self (v : Value) (p : List Int) (w : Value) :
    (v.setPath p w).getPath p = w := by
  induction p generalizing v with
  | nil => rfl
  | cons i p ih => rw [setPath, getPath, get_set_self, ih]

/-- Two paths that part lead to different elements. -/
theorem getPath_setPath_of_not_isPrefix {p q : List Int} (hpq : ¬ p <+: q) (hqp : ¬ q <+: p)
    (v w : Value) : (v.setPath p w).getPath q = v.getPath q := by
  induction p generalizing q v with
  | nil => exact absurd List.nil_prefix hpq
  | cons i p ih =>
    cases q with
    | nil => exact absurd List.nil_prefix hqp
    | cons j q =>
      rw [List.cons_prefix_cons, not_and] at hpq hqp
      by_cases hij : i = j
      · subst hij
        rw [setPath, getPath, getPath, get_set_self, ih (hpq rfl) (hqp rfl)]
      · rw [setPath, getPath, getPath, get_set_of_ne v (Ne.symm hij)]

/-- Elements at the ends of paths that part can be replaced in either order. -/
theorem setPath_comm {p q : List Int} (hpq : ¬ p <+: q) (hqp : ¬ q <+: p) (v w u : Value) :
    (v.setPath p w).setPath q u = (v.setPath q u).setPath p w := by
  induction p generalizing q v with
  | nil => exact absurd List.nil_prefix hpq
  | cons i p ih =>
    cases q with
    | nil => exact absurd List.nil_prefix hqp
    | cons j q =>
      rw [List.cons_prefix_cons, not_and] at hpq hqp
      by_cases hij : i = j
      · -- the paths part further down
        subst hij
        rw [setPath, setPath, setPath, setPath, get_set_self, get_set_self, set_set_self,
          set_set_self, ih (hpq rfl) (hqp rfl)]
      · rw [setPath, setPath, setPath, setPath, get_set_of_ne v (Ne.symm hij),
          get_set_of_ne v hij, set_set_comm v hij]

end Value

/-! ## Places in a state -/

/-- What a target stands for: a name and the indices of its selectors. -/
abbrev Place := String × List Int

/-- Neither place lies inside the other: neither path, with its name in front, continues the
other. -/
def Place.Apart (p q : Place) : Prop :=
  p.1 = q.1 → ¬ p.2 <+: q.2 ∧ ¬ q.2 <+: p.2

/-- Being apart has no direction. -/
theorem Place.Apart.symm {p q : Place} (h : p.Apart q) : q.Apart p :=
  fun hname => (h hname.symm).symm

/-- The value at a place of a state. -/
def readAt (s : State) (p : Place) : Value :=
  (s p.1).getPath p.2

/-- The state with another value at a place. -/
def writeAt (s : State) (p : Place) (w : Value) : State :=
  Function.update s p.1 ((s p.1).setPath p.2 w)

/-- A place has the value that was written there. -/
@[simp] theorem readAt_writeAt_self (s : State) (p : Place) (w : Value) :
    readAt (writeAt s p w) p = w := by
  rw [readAt, writeAt, Function.update_self, Value.getPath_setPath_self]

/-- A write changes nothing at places apart. -/
theorem readAt_writeAt_of_apart {p q : Place} (h : p.Apart q) (s : State) (w : Value) :
    readAt (writeAt s p w) q = readAt s q := by
  unfold readAt writeAt
  by_cases hname : p.1 = q.1
  · rw [← hname, Function.update_self]
    exact Value.getPath_setPath_of_not_isPrefix (h hname).1 (h hname).2 _ w
  · rw [Function.update_of_ne (Ne.symm hname)]

/-- Writes at places apart can be exchanged. -/
theorem writeAt_comm {p q : Place} (h : p.Apart q) (s : State) (w u : Value) :
    writeAt (writeAt s p w) q u = writeAt (writeAt s q u) p w := by
  obtain ⟨x, path⟩ := p
  obtain ⟨y, path'⟩ := q
  unfold writeAt
  by_cases hname : x = y
  · subst hname
    simp only [Function.update_self, Function.update_idem]
    rw [Value.setPath_comm (h rfl).1 (h rfl).2]
  · simp only [Function.update_of_ne hname, Function.update_of_ne (Ne.symm hname)]
    exact Function.update_comm hname _ _ s

/-! ## Sequences of writes -/

variable {I : Interpretation} {s s' s'' : State}

/-- The first write is done, and then the others. -/
theorem writeAll_cons {v : Variable} {e : Expr} {writes : List (Variable × Expr)} {p : Place}
    (h : v.place I s = some p) (s' : State) :
    writeAll I s ((v, e) :: writes) s' = writeAll I s writes (writeAt s' p (e.value I s)) := by
  simp only [writeAll, h]
  rfl

/-- Without a place for the first write nothing is written. -/
theorem writeAll_cons_none {v : Variable} {e : Expr} {writes : List (Variable × Expr)}
    (h : v.place I s = none) (s' : State) : writeAll I s ((v, e) :: writes) s' = none := by
  simp only [writeAll, h]

/-- The first writes are done, and then the others. -/
theorem writeAll_append (writes writes' : List (Variable × Expr)) (s' : State) :
    writeAll I s (writes ++ writes') s' =
      (writeAll I s writes s').bind (writeAll I s writes') := by
  induction writes generalizing s' with
  | nil => rfl
  | cons w writes ih =>
    obtain ⟨v, e⟩ := w
    cases hv : v.place I s with
    | none => rw [List.cons_append, writeAll_cons_none hv, writeAll_cons_none hv, Option.bind_none]
    | some p => rw [List.cons_append, writeAll_cons hv, writeAll_cons hv, ih]

/-- Writes change nothing at a place that is apart from all of theirs. -/
theorem readAt_of_writeAll {writes : List (Variable × Expr)}
    (h : writeAll I s writes s' = some s'') {p : Place}
    (hp : ∀ w ∈ writes, ∀ q, w.1.place I s = some q → Place.Apart q p) :
    readAt s'' p = readAt s' p := by
  induction writes generalizing s' with
  | nil =>
    cases h
    rfl
  | cons w writes ih =>
    obtain ⟨v, e⟩ := w
    rw [List.forall_mem_cons] at hp
    cases hv : v.place I s with
    | none =>
      rw [writeAll_cons_none hv] at h
      cases h
    | some q =>
      rw [writeAll_cons hv] at h
      rw [ih h hp.2, readAt_writeAt_of_apart (hp.1 q hv)]

/-- What was written at a place is found there if all later writes are apart from it. -/
theorem readAt_of_writeAll_append {before after : List (Variable × Expr)} {v : Variable}
    {e : Expr} (h : writeAll I s (before ++ (v, e) :: after) s' = some s'') {p : Place}
    (hv : v.place I s = some p)
    (hafter : ∀ w ∈ after, ∀ q, w.1.place I s = some q → Place.Apart q p) :
    readAt s'' p = e.value I s := by
  rw [writeAll_append] at h
  obtain ⟨u, -, hu⟩ := Option.bind_eq_some_iff.mp h
  rw [writeAll_cons hv] at hu
  rw [readAt_of_writeAll hu hafter, readAt_writeAt_self]

/-- The places of two writes are apart, as far as there are any. -/
def ApartAt (I : Interpretation) (s : State) (w w' : Variable × Expr) : Prop :=
  ∀ p, w.1.place I s = some p → ∀ q, w'.1.place I s = some q → Place.Apart p q

/-- Being apart has no direction for writes. -/
theorem ApartAt.symm {w w' : Variable × Expr} (h : ApartAt I s w w') : ApartAt I s w' w :=
  fun p hp q hq => (h q hq p hp).symm

/-- The first two of a sequence of writes can be exchanged. -/
theorem writeAll_swap {w w' : Variable × Expr} (h : ApartAt I s w w')
    (writes : List (Variable × Expr)) (s' : State) :
    writeAll I s (w :: w' :: writes) s' = writeAll I s (w' :: w :: writes) s' := by
  obtain ⟨v, e⟩ := w
  obtain ⟨v', e'⟩ := w'
  cases hv : v.place I s with
  | none =>
    rw [writeAll_cons_none hv]
    cases hv' : v'.place I s with
    | none => rw [writeAll_cons_none hv']
    | some q => rw [writeAll_cons hv', writeAll_cons_none hv]
  | some p =>
    rw [writeAll_cons hv]
    cases hv' : v'.place I s with
    | none => rw [writeAll_cons_none hv', writeAll_cons_none hv']
    | some q =>
      rw [writeAll_cons hv', writeAll_cons hv', writeAll_cons hv, writeAt_comm (h p hv q hv')]

/-- The order of writes at places apart does not matter. -/
theorem writeAll_perm {writes writes' : List (Variable × Expr)} (h : writes.Perm writes')
    (hapart : writes.Pairwise (ApartAt I s)) (s' : State) :
    writeAll I s writes s' = writeAll I s writes' s' := by
  induction h generalizing s' with
  | nil => rfl
  | cons w _ ih =>
    obtain ⟨v, e⟩ := w
    rw [List.pairwise_cons] at hapart
    cases hv : v.place I s with
    | none => rw [writeAll_cons_none hv, writeAll_cons_none hv]
    | some p => rw [writeAll_cons hv, writeAll_cons hv, ih hapart.2]
  | swap w w' writes =>
    rw [List.pairwise_cons] at hapart
    exact writeAll_swap (hapart.1 w List.mem_cons_self) writes s'
  | trans h₁ _ ih₁ ih₂ =>
    have hmiddle := hapart.perm h₁ ApartAt.symm
    rw [ih₁ hapart, ih₂ hmiddle]

/-! ## Assignments -/

/-- The weakest precondition of an assignment holds exactly where `post` holds after all values are
written, from left to right, at the places that the targets stand for before the assignment. What is
read afterwards at a place apart from all these is what was read before; and what is read at the
place of a target is its value, unless a later write was not apart from it. -/
theorem Assign.holds_iff_of_wp {a : Assign} {post pre : Predicate} (h : a.wp post = .ok pre)
    (I : Interpretation) (s : State) :
    ∃ s', a.run I s = some s' ∧ (pre.Holds I s ↔ post.Holds I s') ∧
      (∀ p : Place, (∀ v ∈ a.lvalues, ∀ q, v.place I s = some q → Place.Apart q p) →
        readAt s' p = readAt s p) ∧
      ∀ before v e after p, a.lvalues.zip a.rvalues = before ++ (v, e) :: after →
        v.place I s = some p → (∀ w ∈ after, ∀ q, w.1.place I s = some q → Place.Apart q p) →
        readAt s' p = e.value I s := by
  obtain ⟨s', hrun, hholds⟩ := Assign.holds_wp (I := I) h s
  have hwrites : writeAll I s (a.lvalues.zip a.rvalues) s = some s' := by
    unfold Assign.run at hrun
    split at hrun
    · exact hrun
    · cases hrun
  refine ⟨s', hrun, hholds, fun p hp => ?_, fun before v e after p hsplit hv hafter => ?_⟩
  · refine readAt_of_writeAll hwrites fun w hw q hq => ?_
    exact hp w.1 (List.of_mem_zip hw).1 q hq
  · rw [hsplit] at hwrites
    exact readAt_of_writeAll_append hwrites hv hafter

/-- The assignment `a[i], a[a[i]], x := x, 7, a[i]`. Its first target is read by the second and by
the last value. -/
def entangled : Assign where
  lvalues := [.select (.name "a") (.name "i"),
    .select (.name "a") (.var (.select (.name "a") (.name "i"))), .name "x"]
  rvalues := [.name "x", .int (.const 7), .int (.var (.select (.name "a") (.name "i")))]
  range := .zero

/-- After `entangled`, `a[x] = 7` holds where `((a; i:x); a[i]:7)[a[i]] = 7` held before. With
`i = 0` and `a[0] = 3` the element `a[3]` becomes `7`, and `b` is left alone. -/
theorem entangled_wp :
    let I : Interpretation := .standard (fun _ _ => 0) fun _ _ => False
    let s : State := fun x => if x = "a" then .map fun k => .int (k + 3) else .int 0
    let element : IntExpr := .var (.select (.name "a") (.name "i"))
    let post : Predicate := .comp .eq (.var (.select (.name "a") (.name "x"))) (.const 7)
    let pre : Predicate := .comp .eq (.var (.select (.store (.store (.name "a") (.name "i")
      (.name "x")) element (.int (.const 7))) element)) (.const 7)
    entangled.wp post = .ok pre ∧
      ∃ s', entangled.run I s = some s' ∧ (pre.Holds I s ↔ post.Holds I s') ∧
        readAt s' ("a", [3]) = .int 7 ∧ readAt s' ("b", []) = readAt s ("b", []) := by
  intro I s element post pre
  have hwp : entangled.wp post = .ok pre := by decide +kernel
  obtain ⟨s', hrun, hholds, hframe, hvalue⟩ := Assign.holds_iff_of_wp hwp I s
  refine ⟨hwp, s', hrun, hholds, ?_, ?_⟩
  · refine hvalue [_] _ _ [_] ("a", [3]) rfl rfl ?_
    intro w hw q hq
    obtain rfl := List.mem_singleton.mp hw
    cases hq
    exact fun hname => absurd hname (by decide)
  · refine hframe ("b", []) fun v hv q hq => ?_
    have hroot : q.1 ≠ "b" := by
      simp only [entangled, List.mem_cons, List.not_mem_nil, or_false] at hv
      rcases hv with rfl | rfl | rfl <;> cases hq <;> decide
    exact fun hname => absurd hname hroot

/-- An accepted assignment stays accepted in every order of its writes. -/
theorem Assign.Accepted.perm {a : Assign} (h : a.Accepted) {writes : List (Variable × Expr)}
    (hperm : writes.Perm (a.lvalues.zip a.rvalues)) (r : TextRange) :
    Assign.Accepted ⟨writes.map Prod.fst, writes.map Prod.snd, r⟩ := by
  have hlvalues : (writes.map Prod.fst).Perm a.lvalues := by
    have hmap := hperm.map Prod.fst
    rwa [Assign.map_fst_zip h.length_eq] at hmap
  refine ⟨by simp, hlvalues.nodup_iff.mpr h.nodup, fun v hv => ?_, ?_⟩
  · exact h.assignable v (hlvalues.mem_iff.mp hv)
  · exact h.pairwise.perm hlvalues.symm fun hclash hclash' => hclash hclash'.symm

/-- An assignment whose targets are given in another order, each with its value, has a normal form
if the assignment has one. In a state in which the places of the targets are pairwise apart the two
normal forms lead to the same state. -/
theorem Assign.normalize_perm {a b : Assign} (h : a.normalize = .ok b)
    {writes : List (Variable × Expr)} (hperm : writes.Perm (a.lvalues.zip a.rvalues))
    (r : TextRange) :
    ∃ b', Assign.normalize ⟨writes.map Prod.fst, writes.map Prod.snd, r⟩ = .ok b' ∧
      ∀ (I : Interpretation) (s : State),
        (a.lvalues.filterMap (Variable.place I s)).Pairwise Place.Apart →
          ∃ s', b.run I s = some s' ∧ b'.run I s = some s' := by
  have haccepted := Assign.exists_normalize_iff.mp ⟨b, h⟩
  obtain ⟨b', hb'⟩ := Assign.exists_normalize_iff.mpr (haccepted.perm hperm r)
  refine ⟨b', hb', fun I s hplaces => ?_⟩
  -- both normal forms do what the assignments do
  rw [Assign.run_normalize h, Assign.run_normalize hb']
  obtain ⟨ts, hts⟩ := Assign.exists_targets_iff.mpr haccepted
  have hrun : writeAll I s (a.lvalues.zip a.rvalues) s =
      some ((Target.substitution ts).apply I s) := by
    have hrun := Assign.run_of_targets (I := I) (s := s) hts
    rwa [Assign.run, if_pos haccepted.length_eq] at hrun
  have hapart : (a.lvalues.zip a.rvalues).Pairwise (ApartAt I s) := by
    rw [← Assign.map_fst_zip haccepted.length_eq, List.filterMap_map,
      List.pairwise_filterMap] at hplaces
    exact hplaces
  have hzip : (writes.map Prod.fst).zip (writes.map Prod.snd) = writes := by
    rw [List.zip_map', List.map_id'']
    exact fun _ => rfl
  refine ⟨_, Assign.run_of_targets hts, ?_⟩
  rw [Assign.run, if_pos (by simp), hzip, ← writeAll_perm hperm.symm hapart, hrun]

/-- The assignment `a[i], b, a[j][k] := x, y, z`. -/
def scattered : Assign where
  lvalues := [.select (.name "a") (.name "i"), .name "b",
    .select (.select (.name "a") (.name "j")) (.name "k")]
  rvalues := [.name "x", .name "y", .name "z"]
  range := .zero

/-- With `a[j][k]` first the element `a[i]` is stored on top of it, which makes no difference where
`i` and `j` differ. -/
theorem scattered_perm :
    let I : Interpretation := .standard (fun _ _ => 0) fun _ _ => False
    let s : State := fun x => if x = "j" then .int 1 else .int 0
    let a' : Assign := ⟨[.select (.select (.name "a") (.name "j")) (.name "k"),
      .select (.name "a") (.name "i"), .name "b"], [.name "z", .name "x", .name "y"], .zero⟩
    ∃ b b', scattered.normalize = .ok b ∧ a'.normalize = .ok b' ∧ b ≠ b' ∧
      ∃ s', b.run I s = some s' ∧ b'.run I s = some s' := by
  intro I s a'
  let b : Assign := ⟨[.name "a", .name "b"],
    [.map (.store (.store (.name "a") (.name "i") (.name "x")) (.name "j")
      (.map (.store (.select (.store (.name "a") (.name "i") (.name "x")) (.name "j")) (.name "k")
        (.name "z")))), .name "y"], .zero⟩
  have hb : scattered.normalize = .ok b := by decide +kernel
  have hperm : [(Variable.select (.select (.name "a") (.name "j")) (.name "k"), Expr.name "z"),
      (.select (.name "a") (.name "i"), .name "x"), (.name "b", .name "y")].Perm
        (scattered.lvalues.zip scattered.rvalues) := by decide +kernel
  obtain ⟨b', hb', hruns⟩ := Assign.normalize_perm hb hperm .zero
  have hne : b ≠ b' := by
    rintro rfl
    exact absurd hb' (by decide +kernel)
  refine ⟨b, b', hb, hb', hne, hruns I s ?_⟩
  have hplaces : scattered.lvalues.filterMap (Variable.place I s) =
      [("a", [0]), ("b", []), ("a", [1, 0])] := rfl
  rw [hplaces]
  simp [Place.Apart]

end GuardedCommand
