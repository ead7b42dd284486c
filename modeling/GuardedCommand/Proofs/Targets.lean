import GuardedCommand.Proofs.Frame
import Mathlib.Data.List.Nodup

/-! # Assignments that have a normal form

An assignment has a normal form unless something is wrong with its targets. What can be wrong does
not depend on the order of the targets, and the normal form leads to the same state as the
assignment itself.

* `Variable.Assignable`, `Variable.Clashes`: targets that are accepted, and accepted together.
* `Assign.Accepted`: nothing is wrong with an assignment.
* `Target.Consistent`: what holds of the targets collected so far.
* `Target.write_cases`: a write adds a target, or goes on top of an earlier one.
* `Assign.exists_normalize_iff`: the accepted assignments are those with a normal form.
* `Assign.run_normalize`: the normal form has the effect of the assignment.
-/

namespace GuardedCommand

/-- A variable that can be assigned to: it is built on a name, not on a modified map. -/
def Variable.Assignable : Variable → Prop
  | .name _ => True
  | .select b _ => b.Assignable
  | .store .. => False

/-- Two targets that cannot be assigned to together: they are built on the same name, and one of
them is that name. -/
def Variable.Clashes (v w : Variable) : Prop :=
  v.root = w.root ∧ (v = .name v.root ∨ w = .name w.root)

/-- A clash of two variables has no direction. -/
theorem Variable.Clashes.symm {v w : Variable} (h : v.Clashes w) : w.Clashes v :=
  ⟨h.1.symm, h.2.symm⟩

/-- Nothing is wrong with the targets of an assignment. -/
structure Assign.Accepted (a : Assign) : Prop where
  /-- Every target has a value. -/
  length_eq : a.lvalues.length = a.rvalues.length
  /-- No target is given twice. -/
  nodup : a.lvalues.Nodup
  /-- Every target is built on a name. -/
  assignable : ∀ v ∈ a.lvalues, v.Assignable
  /-- No name is assigned to together with its elements. -/
  pairwise : a.lvalues.Pairwise fun v w => ¬ v.Clashes w

/-! ## Single targets -/

/-- A target that can be split is built on the name it is split into, and has no selectors exactly
if it is that name. -/
theorem Variable.of_splitTarget {v : Variable} {root : String} {selectors : List IntExpr}
    (h : v.splitTarget = .ok (root, selectors)) :
    v.Assignable ∧ root = v.root ∧ (selectors = [] ↔ v = .name v.root) := by
  induction v using Variable.splitTarget.induct generalizing root selectors with
  | case1 x =>
    simp only [Variable.splitTarget] at h
    cases h
    exact ⟨trivial, rfl, by simp [Variable.root]⟩
  | case2 b i ih =>
    simp only [Variable.splitTarget] at h
    obtain ⟨⟨x, path⟩, hb, h⟩ := exists_of_bind_eq_ok h
    cases h
    obtain ⟨hassignable, rfl, -⟩ := ih hb
    exact ⟨hassignable, rfl, by simp⟩
  | case3 b i e =>
    simp only [Variable.splitTarget] at h
    cases h

/-- An assignable variable is a root with selectors. -/
theorem Variable.exists_splitTarget {v : Variable} (h : v.Assignable) :
    ∃ selectors, v.splitTarget = .ok (v.root, selectors) := by
  induction v using Variable.splitTarget.induct with
  | case1 x => exact ⟨[], rfl⟩
  | case2 b i ih =>
    obtain ⟨selectors, hb⟩ := ih h
    refine ⟨selectors ++ [i], ?_⟩
    rw [Variable.splitTarget, hb]
    rfl
  | case3 b i e => exact h.elim

/-- No variable is repeated exactly if all differ from each other and from those before. -/
theorem firstRepeated_eq_none_iff {seen vs : List Variable} :
    firstRepeated seen vs = none ↔ vs.Nodup ∧ ∀ v ∈ vs, v ∉ seen := by
  induction vs generalizing seen with
  | nil => simp [firstRepeated]
  | cons v vs ih =>
    by_cases hv : v ∈ seen
    · simp [firstRepeated, hv]
    · simp only [firstRepeated, if_neg hv, ih, List.nodup_cons, List.mem_cons, forall_eq_or_imp]
      constructor
      · rintro ⟨hnodup, hseen⟩
        have hfirst : v ∉ vs := fun hmem => hseen v hmem (.inl rfl)
        exact ⟨⟨hfirst, hnodup⟩, hv, fun w hw hmem => hseen w hw (.inr hmem)⟩
      · rintro ⟨⟨hfirst, hnodup⟩, -, hseen⟩
        refine ⟨hnodup, fun w hw hmem => ?_⟩
        rcases hmem with rfl | hmem
        · exact hfirst hw
        · exact hseen w hw hmem

namespace Target

/-! ## Collected targets -/

/-- What holds of the targets that are collected from writes. -/
structure Consistent (ts : List Target) : Prop where
  /-- Every name is a target once. -/
  nodup : (ts.map Target.name).Nodup
  /-- A target of elements receives a modified map. -/
  isMap : ∀ t ∈ ts, t.whole = false → ∃ v, t.value = .map v

/-- An empty list of targets is consistent. -/
theorem consistent_nil : Consistent [] :=
  ⟨List.nodup_nil, fun _ ht => absurd ht List.not_mem_nil⟩

/-- A write either adds a target for a new name, or goes on top of the earlier writes to elements of
its name. -/
theorem write_cases {root : String} {selectors : List IntExpr} {value : Expr}
    {ts ts' : List Target} (h : write root selectors value ts = .ok ts') :
    ((∀ t ∈ ts, t.name ≠ root) ∧
      ts' = ts ++ [⟨root, selectors.isEmpty, writeThrough (.name root) selectors value⟩]) ∨
    ∃ before t after current, ts = before ++ t :: after ∧ t.name = root ∧ t.whole = false ∧
      selectors ≠ [] ∧
      ts' = before ++ { t with value := writeThrough current selectors value } :: after := by
  -- The targets are searched for the name; a new one is put at the end.
  induction ts generalizing ts' with
  | nil =>
    simp only [write] at h
    cases h
    exact .inl ⟨fun t ht => absurd ht List.not_mem_nil, rfl⟩
  | cons t ts ih =>
    simp only [write] at h
    by_cases hroot : t.name = root
    · rw [if_pos hroot] at h
      split at h
      · cases h
      · next hwhole =>
        rw [Bool.or_eq_true, not_or, Bool.not_eq_true, Bool.not_eq_true,
          List.isEmpty_eq_false_iff] at hwhole
        split at h
        · cases h
        · next current hcurrent =>
          cases h
          exact .inr ⟨[], t, ts, current, rfl, hroot, hwhole.2, hwhole.1, rfl⟩
    · rw [if_neg hroot] at h
      obtain ⟨us, hus, h⟩ := exists_of_bind_eq_ok h
      cases h
      rcases ih hus with ⟨hnew, rfl⟩ | ⟨before, u, after, current, rfl, hu, hwhole, hne, rfl⟩
      · exact .inl ⟨List.forall_mem_cons.mpr ⟨hroot, hnew⟩, rfl⟩
      · exact .inr ⟨t :: before, u, after, current, rfl, hu, hwhole, hne, rfl⟩

/-- A write can be added if the earlier writes to its name are to elements, and so is this one. -/
theorem exists_write {root : String} {selectors : List IntExpr} {value : Expr} {ts : List Target}
    (hts : ∀ t ∈ ts, t.whole = false → ∃ v, t.value = .map v)
    (h : ∀ t ∈ ts, t.name = root → t.whole = false ∧ selectors ≠ []) :
    ∃ ts', write root selectors value ts = .ok ts' := by
  induction ts with
  | nil => exact ⟨_, rfl⟩
  | cons t ts ih =>
    rw [List.forall_mem_cons] at hts h
    by_cases hroot : t.name = root
    · obtain ⟨hwhole, hne⟩ := h.1 hroot
      obtain ⟨v, hv⟩ := hts.1 hwhole
      have hempty : selectors.isEmpty = false := List.isEmpty_eq_false_iff.mpr hne
      refine ⟨{ t with value := writeThrough v selectors value } :: ts, ?_⟩
      simp only [write, if_pos hroot, hempty, hwhole, hv, Bool.or_self, Bool.false_eq_true,
        if_false, Expr.asVariable]
    · obtain ⟨ts', hts'⟩ := ih hts.2 h.2
      refine ⟨t :: ts', ?_⟩
      rw [write, if_neg hroot, hts']
      rfl

/-- The names and kinds of targets after a write: its own is there besides those before it. -/
theorem mem_of_write {root : String} {selectors : List IntExpr} {value : Expr}
    {ts ts' : List Target} (h : write root selectors value ts = .ok ts') (x : String) (b : Bool) :
    (∃ t ∈ ts', t.name = x ∧ t.whole = b) ↔
      (∃ t ∈ ts, t.name = x ∧ t.whole = b) ∨ (root = x ∧ selectors.isEmpty = b) := by
  rcases write_cases h with ⟨-, rfl⟩ | ⟨before, t, after, current, rfl, rfl, hwhole, hne, rfl⟩
  · simp only [List.mem_append, List.mem_singleton, or_and_right, exists_or, exists_eq_left]
  · -- the target of the name was there before
    have hempty : selectors.isEmpty = false := List.isEmpty_eq_false_iff.mpr hne
    simp only [List.mem_append, List.mem_cons, or_and_right, exists_or, exists_eq_left, hempty,
      hwhole]
    refine ⟨.inl, ?_⟩
    rintro (hbefore | hown)
    · exact hbefore
    · exact .inr (.inl hown)

/-- Writing a value keeps the targets consistent. -/
theorem Consistent.of_write {root : String} {selectors : List IntExpr} {value : Expr}
    {ts ts' : List Target} (hts : Consistent ts)
    (h : write root selectors value ts = .ok ts') : Consistent ts' := by
  obtain ⟨hnodup, hmap⟩ := hts
  rcases write_cases h with ⟨hnew, rfl⟩ | ⟨before, t, after, current, rfl, rfl, hwhole, hne, rfl⟩
  · constructor
    · have hroot : root ∉ ts.map Target.name := fun hmem => by
        obtain ⟨t, ht, rfl⟩ := List.mem_map.mp hmem
        exact hnew t ht rfl
      rw [List.map_append, List.map_cons, List.map_nil, List.nodup_append_comm]
      exact List.nodup_cons.mpr ⟨hroot, hnodup⟩
    · intro t ht hwhole
      rcases List.mem_append.mp ht with ht | ht
      · exact hmap t ht hwhole
      · rw [List.mem_singleton] at ht
        subst ht
        -- without selectors the name itself is written
        cases selectors with
        | nil => cases hwhole
        | cons i selectors => exact ⟨_, rfl⟩
  · constructor
    · simpa only [List.map_append, List.map_cons] using hnodup
    · intro u hu hwhole
      rw [List.mem_append, List.mem_cons] at hu
      rcases hu with hu | rfl | hu
      · exact hmap u (List.mem_append_left _ hu) hwhole
      · cases selectors with
        | nil => exact absurd rfl hne
        | cons i selectors => exact ⟨_, rfl⟩
      · exact hmap u (List.mem_append_right _ (List.mem_cons_of_mem t hu)) hwhole

/-- A target can be added if it is built on a name and clashes with no earlier target. -/
theorem exists_add_iff {ts : List Target} (hts : Consistent ts) {v : Variable} {e : Expr} :
    (∃ ts', add ts v e = .ok ts') ↔
      v.Assignable ∧ ∀ t ∈ ts, t.name = v.root → t.whole = false ∧ v ≠ .name v.root := by
  constructor
  · rintro ⟨ts', h⟩
    simp only [add] at h
    split at h
    · cases h
    · next root selectors hsplit =>
      obtain ⟨hassignable, rfl, hselectors⟩ := Variable.of_splitTarget hsplit
      refine ⟨hassignable, fun t ht hroot => ?_⟩
      rcases write_cases h with ⟨hnew, -⟩ | ⟨before, u, after, current, rfl, hu, hwhole, hne, -⟩
      · exact absurd hroot (hnew t ht)
      · -- no other target has the name
        have hinj := List.inj_on_of_nodup_map hts.nodup
        obtain rfl : t = u := hinj ht (by simp) (hroot.trans hu.symm)
        exact ⟨hwhole, fun hname => hne (hselectors.mpr hname)⟩
  · rintro ⟨hassignable, h⟩
    obtain ⟨selectors, hsplit⟩ := Variable.exists_splitTarget hassignable
    obtain ⟨-, -, hselectors⟩ := Variable.of_splitTarget hsplit
    simp only [add, hsplit]
    refine exists_write hts.isMap fun t ht hroot => ?_
    obtain ⟨hwhole, hname⟩ := h t ht hroot
    exact ⟨hwhole, fun hempty => hname (hselectors.mp hempty)⟩

/-- Adding a write keeps the targets consistent. -/
theorem Consistent.of_add {ts ts' : List Target} (hts : Consistent ts) {v : Variable} {e : Expr}
    (h : add ts v e = .ok ts') : Consistent ts' := by
  simp only [add] at h
  split at h
  · cases h
  · exact hts.of_write h

/-- Adding a write adds its root, as a whole or as an array, and nothing else. -/
theorem mem_of_add {ts ts' : List Target} {v : Variable} {e : Expr} (h : add ts v e = .ok ts')
    (x : String) (b : Bool) :
    (∃ t ∈ ts', t.name = x ∧ t.whole = b) ↔
      (∃ t ∈ ts, t.name = x ∧ t.whole = b) ∨ (v.root = x ∧ (v = .name v.root ↔ b = true)) := by
  simp only [add] at h
  split at h
  · cases h
  · next root selectors hsplit =>
    obtain ⟨-, rfl, hselectors⟩ := Variable.of_splitTarget hsplit
    rw [mem_of_write h, ← hselectors, ← List.isEmpty_iff, Bool.eq_iff_iff]

/-- Writes can be collected if their targets are built on names and do not clash, with one another
or with an earlier target. -/
theorem exists_collect_iff (writes : List (Variable × Expr)) {ts : List Target}
    (hts : Consistent ts) :
    (∃ ts', collect writes ts = .ok ts') ↔
      (∀ w ∈ writes, w.1.Assignable) ∧ writes.Pairwise (fun w w' => ¬ w.1.Clashes w'.1) ∧
        ∀ w ∈ writes, ∀ t ∈ ts, t.name = w.1.root → t.whole = false ∧ w.1 ≠ .name w.1.root := by
  induction writes generalizing ts with
  | nil => simp [collect]
  | cons w writes ih =>
    obtain ⟨v, e⟩ := w
    rw [List.forall_mem_cons, List.pairwise_cons, List.forall_mem_cons]
    constructor
    · rintro ⟨ts', h⟩
      obtain ⟨us, hadd, hcollect⟩ := exists_of_bind_eq_ok h
      obtain ⟨hv, hvts⟩ := (exists_add_iff hts).mp ⟨us, hadd⟩
      obtain ⟨hassignable, hpairwise, hus⟩ := (ih (hts.of_add hadd)).mp ⟨ts', hcollect⟩
      refine ⟨⟨hv, hassignable⟩, ⟨fun w hw hclash => ?_, hpairwise⟩, hvts, fun w hw t ht => ?_⟩
      · -- the first target was collected, so it is not a name and neither is the later one
        by_cases hname : v = .name v.root
        · obtain ⟨t, ht, hroot, hwhole⟩ :=
            (mem_of_add hadd v.root true).mpr (.inr ⟨rfl, iff_of_true hname rfl⟩)
          have hfalse := (hus w hw t ht (hroot.trans hclash.1)).1
          rw [hwhole] at hfalse
          cases hfalse
        · obtain ⟨t, ht, hroot, -⟩ :=
            (mem_of_add hadd v.root false).mpr (.inr ⟨rfl, iff_of_false hname Bool.false_ne_true⟩)
          have hw' := (hus w hw t ht (hroot.trans hclash.1)).2
          exact hclash.2.elim hname hw'
      · obtain ⟨t', ht', hroot, hwhole⟩ :=
          (mem_of_add hadd t.name t.whole).mpr (.inl ⟨t, ht, rfl, rfl⟩)
        rw [← hroot, ← hwhole]
        exact hus w hw t' ht'
    · rintro ⟨⟨hv, hassignable⟩, ⟨hclash, hpairwise⟩, hvts, hwrites⟩
      obtain ⟨us, hadd⟩ := (exists_add_iff (e := e) hts).mpr ⟨hv, hvts⟩
      have hrest : ∃ ts', collect writes us = .ok ts' := by
        refine (ih (hts.of_add hadd)).mpr ⟨hassignable, hpairwise, fun w hw t ht hroot => ?_⟩
        -- A target of the same name was there before, or it is that of the first write.
        rcases (mem_of_add hadd t.name t.whole).mp ⟨t, ht, rfl, rfl⟩ with
          ⟨t', ht', hname, hwhole⟩ | ⟨hname, hwhole⟩
        · rw [← hwhole]
          exact hwrites w hw t' ht' (hname.trans hroot)
        · have hneither : ¬ (v = .name v.root ∨ w.1 = .name w.1.root) :=
            fun hor => hclash w hw ⟨hname.trans hroot, hor⟩
          rw [not_or, hwhole, Bool.not_eq_true] at hneither
          exact hneither
      obtain ⟨ts', hcollect⟩ := hrest
      refine ⟨ts', ?_⟩
      rw [collect, hadd]
      exact hcollect

/-- Collecting writes keeps the targets consistent. -/
theorem Consistent.of_collect {writes : List (Variable × Expr)} {ts ts' : List Target}
    (hts : Consistent ts) (h : collect writes ts = .ok ts') : Consistent ts' := by
  induction writes generalizing ts with
  | nil =>
    cases h
    exact hts
  | cons w writes ih =>
    obtain ⟨us, hadd, hcollect⟩ := exists_of_bind_eq_ok h
    exact ih (hts.of_add hadd) hcollect

/-- A property of targets that passes through every write passes to all targets that are collected.
A write to a new name makes a target; any other goes on top of the value that its name has. -/
theorem forall_of_collect {P : Target → Prop} {writes : List (Variable × Expr)}
    {ts ts' : List Target}
    (hnew : ∀ w ∈ writes, ∀ root selectors, w.1.splitTarget = .ok (root, selectors) →
      P ⟨root, selectors.isEmpty, writeThrough (.name root) selectors w.2⟩)
    (hagain : ∀ w ∈ writes, ∀ root selectors t current,
      w.1.splitTarget = .ok (root, selectors) → P t → t.name = root →
      t.value.asVariable = some current →
      P { t with value := writeThrough current selectors w.2 })
    (hts : ∀ t ∈ ts, P t) (h : collect writes ts = .ok ts') : ∀ t ∈ ts', P t := by
  induction writes generalizing ts with
  | nil =>
    cases h
    exact hts
  | cons w writes ih =>
    rw [List.forall_mem_cons] at hnew hagain
    obtain ⟨us, hadd, hcollect⟩ := exists_of_bind_eq_ok h
    refine ih hnew.2 hagain.2 ?_ hcollect
    unfold add at hadd
    split at hadd
    · cases hadd
    · next root selectors hsplit =>
      -- the write is either behind all targets or on top of one of them
      clear hcollect h ih
      induction ts generalizing us with
      | nil =>
        cases hadd
        exact List.forall_mem_singleton.mpr (hnew.1 root selectors hsplit)
      | cons t ts ih =>
        rw [List.forall_mem_cons] at hts
        simp only [write] at hadd
        by_cases hroot : t.name = root
        · rw [if_pos hroot] at hadd
          split at hadd
          · cases hadd
          · split at hadd
            · cases hadd
            · next current hcurrent =>
              cases hadd
              exact List.forall_mem_cons.mpr
                ⟨hagain.1 root selectors t current hsplit hts.1 hroot hcurrent, hts.2⟩
        · rw [if_neg hroot] at hadd
          obtain ⟨vs, hvs, hadd⟩ := exists_of_bind_eq_ok hadd
          cases hadd
          exact List.forall_mem_cons.mpr ⟨hts.1, ih hts.2 vs hvs⟩

end Target

/-! ## Assignments -/

/-- The targets of an assignment, where nothing is wrong before they are collected. -/
theorem Assign.targets_eq_collect {a : Assign} (hlength : a.lvalues.length = a.rvalues.length)
    (hnodup : a.lvalues.Nodup) :
    a.targets = Target.collect (a.lvalues.zip a.rvalues) [] := by
  have hrepeated : firstRepeated [] a.lvalues = none :=
    firstRepeated_eq_none_iff.mpr ⟨hnodup, fun _ _ => List.not_mem_nil⟩
  rw [Assign.targets, if_neg (not_not.mpr hlength), hrepeated]

/-- An assignment with targets has as many values as variables, and no variable twice. -/
theorem Assign.of_targets {a : Assign} {ts : List Target} (h : a.targets = .ok ts) :
    a.lvalues.length = a.rvalues.length ∧ a.lvalues.Nodup := by
  unfold Assign.targets at h
  split at h
  · cases h
  · next hlength =>
    split at h
    · cases h
    · next hrepeated =>
      exact ⟨not_not.mp hlength, (firstRepeated_eq_none_iff.mp hrepeated).1⟩

/-- Where every target has a value, what is said of the targets is said of the writes. -/
theorem Assign.map_fst_zip {a : Assign} (h : a.lvalues.length = a.rvalues.length) :
    (a.lvalues.zip a.rvalues).map Prod.fst = a.lvalues :=
  List.map_fst_zip (le_of_eq h)

/-- Exactly the accepted assignments have targets. -/
theorem Assign.exists_targets_iff {a : Assign} : (∃ ts, a.targets = .ok ts) ↔ a.Accepted := by
  have hcollect := Target.exists_collect_iff (a.lvalues.zip a.rvalues) Target.consistent_nil
  constructor
  · rintro ⟨ts, h⟩
    obtain ⟨hlength, hnodup⟩ := Assign.of_targets h
    rw [Assign.targets_eq_collect hlength hnodup] at h
    obtain ⟨hassignable, hpairwise, -⟩ := hcollect.mp ⟨ts, h⟩
    refine ⟨hlength, hnodup, ?_, ?_⟩
    · rw [← Assign.map_fst_zip hlength]
      exact List.forall_mem_map.mpr hassignable
    · rw [← Assign.map_fst_zip hlength, List.pairwise_map]
      exact hpairwise
  · rintro ⟨hlength, hnodup, hassignable, hpairwise⟩
    rw [← Assign.map_fst_zip hlength] at hassignable hpairwise
    rw [Assign.targets_eq_collect hlength hnodup]
    exact hcollect.mpr ⟨List.forall_mem_map.mp hassignable, List.pairwise_map.mp hpairwise,
      fun _ _ _ ht => absurd ht List.not_mem_nil⟩

/-- An assignment has a normal form exactly if nothing is wrong with its targets. -/
theorem Assign.exists_normalize_iff {a : Assign} : (∃ b, a.normalize = .ok b) ↔ a.Accepted := by
  rw [← Assign.exists_targets_iff]
  unfold Assign.normalize
  constructor
  · rintro ⟨b, h⟩
    split at h
    · cases h
    · next ts hts => exact ⟨ts, hts⟩
  · rintro ⟨ts, hts⟩
    rw [hts]
    exact ⟨_, rfl⟩

/-! ## Effect of the normal form -/

variable {I : Interpretation} {s : State}

/-- A name that is no target keeps its value. -/
theorem Target.apply_of_notMem {ts : List Target} {y : String} (hy : y ∉ ts.map Target.name) :
    (Target.substitution ts).apply I s y = s y := by
  induction ts with
  | nil => rfl
  | cons t ts ih =>
    rw [List.map_cons, List.mem_cons, not_or] at hy
    rw [Target.apply_cons, if_neg hy.1, ih hy.2]

/-- Writing to different names, one after the other, leaves each with its own value. -/
theorem Target.writeAll_names {ts : List Target} (h : (ts.map Target.name).Nodup) (s' : State) :
    writeAll I s ((ts.map fun t => Variable.name t.name).zip (ts.map Target.value)) s' =
      some fun y =>
        if y ∈ ts.map Target.name then (Target.substitution ts).apply I s y else s' y := by
  induction ts generalizing s' with
  | nil => simp [writeAll]
  | cons t ts ih =>
    rw [List.map_cons, List.nodup_cons] at h
    simp only [List.map_cons, List.zip_cons_cons, writeAll, Variable.place, Value.setPath]
    rw [ih h.2]
    congr 1
    funext y
    rw [Target.apply_cons]
    by_cases hy : y = t.name
    · subst hy
      rw [if_neg h.1, Function.update_self, if_pos List.mem_cons_self, if_pos rfl]
    · rw [Function.update_of_ne hy, if_neg hy]
      by_cases hmem : y ∈ ts.map Target.name
      · rw [if_pos hmem, if_pos (List.mem_cons_of_mem _ hmem)]
      · rw [if_neg hmem, if_neg (by simp [hy, hmem])]

/-- The normal form of an assignment leads to the same state. -/
theorem Assign.run_normalize {a b : Assign} (h : a.normalize = .ok b) :
    b.run I s = a.run I s := by
  unfold Assign.normalize at h
  split at h
  · cases h
  · next ts hts =>
    cases h
    obtain ⟨hlength, hnodup⟩ := Assign.of_targets hts
    have hconsistent : Target.Consistent ts := by
      have hcollect := hts
      rw [Assign.targets_eq_collect hlength hnodup] at hcollect
      exact Target.consistent_nil.of_collect hcollect
    rw [Assign.run_of_targets hts, Assign.run, if_pos (by simp),
      Target.writeAll_names hconsistent.nodup]
    congr 1
    funext y
    by_cases hy : y ∈ ts.map Target.name
    · rw [if_pos hy]
    · rw [if_neg hy, Target.apply_of_notMem hy]

end GuardedCommand
