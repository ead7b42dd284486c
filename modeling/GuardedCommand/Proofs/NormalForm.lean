import GuardedCommand.Proofs.Changes
import GuardedCommand.Proofs.Targets

/-! # Normal forms

The normal form of an assignment, and programs whose assignments are in normal form. There is a
normal form unless something is wrong with the targets; it assigns to plain names only, each of them
once, and is its own normal form. Bringing the assignments of a program into normal form first is of
no consequence for its obligations.

* `Target.names_of_collect`: the collected names, in the order of their first mention.
* `Target.fault_of_collect`: what can go wrong while targets are collected.
* `Assign.normalize_spec`: when there is a normal form, and what it looks like.
* `Assign.normalize_normalize`: a normal form is its own normal form.
* `Change.normalForms`: bringing assignments into normal form as a change that obligations follow.
* `Program.generate_of_normalize`: a program and its normal form have the same obligations.
-/

namespace GuardedCommand

/-! ## Names of collected targets -/

/-- A further item is kept unless it was there before. -/
theorem eraseDups_concat (xs : List String) (x : String) :
    (xs ++ [x]).eraseDups = if x ∈ xs then xs.eraseDups else xs.eraseDups ++ [x] := by
  rw [List.eraseDups_append, List.removeAll]
  by_cases hx : x ∈ xs
  · rw [if_pos hx, List.filter_cons_of_neg (by simpa using hx), List.filter_nil,
      List.eraseDups_nil, List.append_nil]
  · rw [if_neg hx, List.filter_cons_of_pos (by simpa using hx), List.filter_nil,
      List.eraseDups_cons, List.filter_nil, List.eraseDups_nil]

namespace Target

/-- A write adds its name to those before it, unless it is one of them. -/
theorem names_of_write {root : String} {selectors : List IntExpr} {value : Expr}
    {ts ts' : List Target} (h : write root selectors value ts = .ok ts') :
    ts'.map Target.name =
      if root ∈ ts.map Target.name then ts.map Target.name else ts.map Target.name ++ [root] := by
  rcases write_cases h with ⟨hnew, rfl⟩ | ⟨before, t, after, current, rfl, rfl, -, -, rfl⟩
  · have hroot : root ∉ ts.map Target.name := by
      intro hmem
      obtain ⟨t, ht, rfl⟩ := List.mem_map.mp hmem
      exact hnew t ht rfl
    rw [if_neg hroot, List.map_append, List.map_cons, List.map_nil]
  · rw [if_pos (by simp)]
    simp only [List.map_append, List.map_cons]

/-- The targets of writes have the names that are written, in the order of their first mention. The
names `seen` are those mentioned before. -/
theorem names_of_collect {writes : List (Variable × Expr)} {ts ts' : List Target}
    {seen : List String} (hts : ts.map Target.name = seen.eraseDups)
    (h : collect writes ts = .ok ts') :
    ts'.map Target.name = (seen ++ writes.map fun w => w.1.root).eraseDups := by
  induction writes generalizing ts seen with
  | nil =>
    cases h
    rw [hts, List.map_nil, List.append_nil]
  | cons w writes ih =>
    obtain ⟨v, e⟩ := w
    obtain ⟨us, hadd, hcollect⟩ := exists_of_bind_eq_ok h
    have hus : us.map Target.name = (seen ++ [v.root]).eraseDups := by
      simp only [add] at hadd
      split at hadd
      · cases hadd
      · next root selectors hsplit =>
        obtain ⟨-, rfl, -⟩ := Variable.of_splitTarget hsplit
        simp only [names_of_write hadd, hts, List.mem_eraseDups, eraseDups_concat]
    rw [ih hus hcollect, List.append_assoc]
    rfl

/-! ## Faults of collected targets -/

/-- Where targets of elements receive maps, all that can be wrong with a write is that a name and
its elements are written together. -/
theorem fault_of_write {root : String} {selectors : List IntExpr} {value : Expr}
    {ts : List Target} {fault : SpecFault}
    (hts : ∀ t ∈ ts, t.whole = false → ∃ v, t.value = .map v)
    (h : write root selectors value ts = .error fault) : fault = .wholeAndElement root := by
  induction ts with
  | nil => cases h
  | cons t ts ih =>
    rw [List.forall_mem_cons] at hts
    by_cases hroot : t.name = root
    · by_cases hwhole : (selectors.isEmpty || t.whole) = true
      · simp only [write, if_pos hroot, if_pos hwhole] at h
        exact (Except.error.inj h).symm
      · -- an element of a map is written on top of other elements
        have helement : t.whole = false := by
          rw [Bool.or_eq_true, not_or, Bool.not_eq_true, Bool.not_eq_true] at hwhole
          exact hwhole.2
        obtain ⟨v, hv⟩ := hts.1 helement
        simp only [write, if_pos hroot, if_neg hwhole, hv, Expr.asVariable] at h
        cases h
    · simp only [write, if_neg hroot] at h
      cases hrest : write root selectors value ts with
      | error fault' =>
        rw [hrest] at h
        cases h
        exact ih hts.2 hrest
      | ok us =>
        rw [hrest] at h
        cases h

/-- While targets are collected, either a target is built on a modified map or a name and its
elements are written together. -/
theorem fault_of_collect {writes : List (Variable × Expr)} {ts : List Target} {fault : SpecFault}
    (hts : Consistent ts) (h : collect writes ts = .error fault) :
    (∃ v, fault = .storeTarget v) ∨ ∃ root, fault = .wholeAndElement root := by
  induction writes generalizing ts with
  | nil => cases h
  | cons w writes ih =>
    obtain ⟨v, e⟩ := w
    cases hadd : add ts v e with
    | ok us =>
      rw [collect, hadd] at h
      exact ih (hts.of_add hadd) h
    | error fault' =>
      rw [collect, hadd] at h
      cases h
      simp only [add] at hadd
      split at hadd
      · exact .inl ⟨_, (Except.error.inj hadd).symm⟩
      · exact .inr ⟨_, fault_of_write hts.isMap hadd⟩

end Target

/-! ## The normal form of an assignment -/

namespace Assign

/-- Whatever is wrong with an assignment, it is not that an element of a number is written. -/
theorem fault_ne_notAMap {a : Assign} {fault : SpecFault} (h : a.targets = .error fault)
    (root : String) : fault ≠ .notAMap root := by
  rintro rfl
  unfold targets at h
  split at h
  · cases h
  · split at h
    · cases h
    · rcases Target.fault_of_collect Target.consistent_nil h with ⟨v, hv⟩ | ⟨x, hx⟩
      · cases hv
      · cases hx

/-- What is wrong with an assignment that is not accepted. -/
theorem not_accepted_iff {a : Assign} : ¬ a.Accepted ↔
    a.lvalues.length ≠ a.rvalues.length ∨ (∃ v, [v, v].Sublist a.lvalues) ∨
      (∃ v ∈ a.lvalues, ¬ v.Assignable) ∨ ∃ v w, [v, w].Sublist a.lvalues ∧ v.Clashes w := by
  have hnodup : ¬ a.lvalues.Nodup ↔ ∃ v, [v, v].Sublist a.lvalues := by
    rw [List.nodup_iff_sublist]
    push Not
    rfl
  have hpairwise : ¬ a.lvalues.Pairwise (fun v w => ¬ v.Clashes w) ↔
      ∃ v w, [v, w].Sublist a.lvalues ∧ v.Clashes w := by
    rw [List.pairwise_iff_forall_sublist]
    push Not
    rfl
  have haccepted : a.Accepted ↔ a.lvalues.length = a.rvalues.length ∧ a.lvalues.Nodup ∧
      (∀ v ∈ a.lvalues, v.Assignable) ∧ a.lvalues.Pairwise fun v w => ¬ v.Clashes w :=
    ⟨fun h => ⟨h.length_eq, h.nodup, h.assignable, h.pairwise⟩,
      fun h => ⟨h.1, h.2.1, h.2.2.1, h.2.2.2⟩⟩
  rw [haccepted, not_and_or, not_and_or, not_and_or, hnodup, hpairwise]
  push Not
  rfl

/-- The targets of an assignment that has any are collected from its writes. -/
theorem collect_of_targets {a : Assign} {ts : List Target} (h : a.targets = .ok ts) :
    Target.collect (a.lvalues.zip a.rvalues) [] = .ok ts := by
  obtain ⟨hlength, hnodup⟩ := of_targets h
  rwa [targets_eq_collect hlength hnodup] at h

/-- A normal form is made of the targets of the assignment. -/
theorem exists_targets_of_normalize {a b : Assign} (h : a.normalize = .ok b) :
    ∃ ts, a.targets = .ok ts ∧ Target.Consistent ts ∧
      b = ⟨ts.map fun t => .name t.name, ts.map Target.value, a.range⟩ := by
  unfold normalize at h
  split at h
  · cases h
  · next ts hts =>
    cases h
    exact ⟨ts, hts, Target.consistent_nil.of_collect (collect_of_targets hts), rfl⟩

/-- The weakest precondition of an assignment replaces its targets by their values. -/
theorem exists_targets_of_wp {a : Assign} {post pre : Predicate} (h : a.wp post = .ok pre) :
    ∃ ts, Target.collect (a.lvalues.zip a.rvalues) [] = .ok ts ∧
      post.subst (Target.substitution ts) = .ok pre := by
  obtain ⟨b, hb, h⟩ := exists_of_bind_eq_ok h
  obtain ⟨σ, hσ, h⟩ := exists_of_bind_eq_ok h
  obtain ⟨ts, hts, -, rfl⟩ := exists_targets_of_normalize (eq_ok_of_mapError_eq_ok hb)
  have hσ := eq_ok_of_mapError_eq_ok hσ
  obtain rfl := Except.ok.inj ((Substitution.ofTargets_map ts).symm.trans hσ)
  exact ⟨ts, collect_of_targets hts, eq_ok_of_mapError_eq_ok h⟩

/-- An assignment has no normal form exactly if it has not as many targets as values, two of its
targets are the same, a target is built on a modified map, or two targets are built on the same name
and one of them is that name; it is never at fault for writing to something that is no map. A normal
form assigns to names, which are all different: those that the targets are built on, in the order in
which they are first mentioned. It gives one value to each and stands where the assignment
stands. -/
theorem normalize_spec (a : Assign) :
    ((∃ err, a.normalize = .error err) ↔
      a.lvalues.length ≠ a.rvalues.length ∨ (∃ v, [v, v].Sublist a.lvalues) ∨
        (∃ v ∈ a.lvalues, ¬ v.Assignable) ∨ ∃ v w, [v, w].Sublist a.lvalues ∧ v.Clashes w) ∧
    (∀ err, a.normalize = .error err → ∀ root, err.fault ≠ .notAMap root) ∧
    ∀ b, a.normalize = .ok b →
      b.lvalues = (a.lvalues.map Variable.root).eraseDups.map Variable.name ∧ b.lvalues.Nodup ∧
        b.rvalues.length = b.lvalues.length ∧ b.range = a.range := by
  refine ⟨?_, ?_, ?_⟩
  · rw [← not_accepted_iff, ← exists_normalize_iff]
    cases a.normalize with
    | error err => simp
    | ok b => simp
  · intro err h root
    unfold normalize at h
    split at h
    · next fault hfault =>
      cases h
      exact fault_ne_notAMap hfault root
    · cases h
  · intro b h
    -- The assigned names are those of the targets, which are collected from left to right.
    obtain ⟨ts, hts, hconsistent, rfl⟩ := exists_targets_of_normalize h
    have hlength := (of_targets hts).1
    have hnames : ts.map Target.name = (a.lvalues.map Variable.root).eraseDups := by
      have hcollect : ts.map Target.name =
          ([] ++ (a.lvalues.zip a.rvalues).map fun w : Variable × Expr => w.1.root).eraseDups :=
        Target.names_of_collect rfl (collect_of_targets hts)
      rw [List.nil_append] at hcollect
      have hroots : (a.lvalues.zip a.rvalues).map (fun w => w.1.root) =
          ((a.lvalues.zip a.rvalues).map Prod.fst).map Variable.root := by
        rw [List.map_map]
        rfl
      rw [hcollect, hroots, map_fst_zip hlength]
    have hlvalues : (ts.map fun t => Variable.name t.name) =
        (ts.map Target.name).map Variable.name := by
      rw [List.map_map]
      rfl
    refine ⟨hnames ▸ hlvalues, ?_, ?_, rfl⟩
    · rw [hlvalues]
      exact hconsistent.nodup.map fun x y hxy => Variable.name.inj hxy
    · rw [List.length_map, List.length_map]

end Assign

/-- The assignment `a[i], b, a[j] := x, y, z` with a further target of the value `w`. -/
def elementsAnd (v : Variable) : Assign where
  lvalues := [.select (.name "a") (.name "i"), .name "b", .select (.name "a") (.name "j"), v]
  rvalues := [.name "x", .name "y", .name "z", .name "w"]
  range := .zero

/-- Together with an element of `c` the elements of `a` make one target; together with `a` itself,
or with `b` once more, they make none. -/
theorem elementsAnd_normalize :
    (∃ b, (elementsAnd (.select (.name "c") (.name "i"))).normalize = .ok b ∧
      b.lvalues = [.name "a", .name "b", .name "c"] ∧ b.rvalues.length = 3) ∧
    (∃ err, (elementsAnd (.name "a")).normalize = .error err) ∧
    ∃ err, (elementsAnd (.name "b")).normalize = .error err := by
  refine ⟨?_, ?_, ?_⟩
  · let a := elementsAnd (.select (.name "c") (.name "i"))
    have hok : a.normalize.toOption.isSome = true := by decide +kernel
    cases hb : a.normalize with
    | error err =>
      rw [hb] at hok
      cases hok
    | ok b =>
      obtain ⟨hlvalues, -, hlength, -⟩ := (Assign.normalize_spec a).2.2 b hb
      have hnames : b.lvalues = [.name "a", .name "b", .name "c"] :=
        hlvalues.trans (by decide +kernel)
      refine ⟨b, rfl, hnames, ?_⟩
      rw [hlength, hnames]
      rfl
  · refine (Assign.normalize_spec (elementsAnd (.name "a"))).1.mpr (.inr (.inr (.inr ?_)))
    refine ⟨.select (.name "a") (.name "i"), .name "a", ?_, rfl, .inr rfl⟩
    decide +kernel
  · refine (Assign.normalize_spec (elementsAnd (.name "b"))).1.mpr (.inr (.inl ⟨.name "b", ?_⟩))
    decide +kernel

/-! ## Normal forms are their own normal form -/

namespace Target

/-- A write to a new name adds a target. -/
theorem write_of_forall_ne {root : String} {selectors : List IntExpr} {value : Expr}
    {ts : List Target} (h : ∀ t ∈ ts, t.name ≠ root) :
    write root selectors value ts =
      .ok (ts ++ [⟨root, selectors.isEmpty, writeThrough (.name root) selectors value⟩]) := by
  induction ts with
  | nil => rfl
  | cons t ts ih =>
    rw [List.forall_mem_cons] at h
    rw [write, if_neg h.1, ih h.2]
    rfl

/-- Writes to different names are collected as they are. -/
theorem collect_names {before ts : List Target} (h : ((before ++ ts).map Target.name).Nodup) :
    collect ((ts.map fun t => Variable.name t.name).zip (ts.map Target.value)) before =
      .ok (before ++ ts.map fun t => { t with whole := true }) := by
  induction ts generalizing before with
  | nil => simp only [List.map_nil, List.append_nil, List.zip_nil_left, collect]
  | cons t ts ih =>
    have hnew : ∀ u ∈ before, u.name ≠ t.name := by
      rw [List.map_append, List.map_cons, List.nodup_append] at h
      intro u hu
      exact h.2.2 u.name (List.mem_map_of_mem hu) t.name List.mem_cons_self
    have hadd : add before (.name t.name) t.value = .ok (before ++ [{ t with whole := true }]) :=
      write_of_forall_ne hnew
    have hrest : ((before ++ [{ t with whole := true }] ++ ts).map Target.name).Nodup := by
      simpa using h
    rw [List.map_cons, List.map_cons, List.zip_cons_cons, collect, hadd]
    refine (ih hrest).trans ?_
    rw [List.append_assoc]
    rfl

end Target

namespace Assign

/-- A normal form is its own normal form. -/
theorem normalize_normalize {a b : Assign} (h : a.normalize = .ok b) : b.normalize = .ok b := by
  obtain ⟨ts, -, hconsistent, rfl⟩ := exists_targets_of_normalize h
  have hlvalues : (ts.map fun t => Variable.name t.name).Nodup := by
    have hnames := hconsistent.nodup.map fun x y hxy => Variable.name.inj hxy
    rwa [List.map_map] at hnames
  have hcollect : Target.collect ((ts.map fun t => .name t.name).zip (ts.map Target.value)) [] =
      .ok ([] ++ ts.map fun t => { t with whole := true }) :=
    Target.collect_names hconsistent.nodup
  have htargets : targets ⟨ts.map fun t => .name t.name, ts.map Target.value, a.range⟩ =
      .ok (ts.map fun t => { t with whole := true }) := by
    rw [targets_eq_collect (by simp) hlvalues]
    exact hcollect
  simp only [normalize, htargets, List.map_map]
  rfl

/-- Nothing is lost of a weakest precondition by bringing the assignment into normal form first. -/
theorem wp_of_normalize {a b : Assign} (h : a.normalize = .ok b) (post : Predicate) :
    b.wp post = a.wp post := by
  unfold Assign.wp
  rw [h, normalize_normalize h]

/-- The normal form of an assignment; an assignment without one is left as it is. -/
def normalForm (a : Assign) : Assign :=
  match a.normalize with
  | .ok b => b
  | .error _ => a

/-- The normal form of an assignment that can be normalized. -/
theorem normalForm_of_normalize {a b : Assign} (h : a.normalize = .ok b) : a.normalForm = b := by
  rw [normalForm, h]

/-- An assignment that cannot be normalized is taken as its normal form. -/
theorem normalForm_of_error {a : Assign} {err : SpecError} (h : a.normalize = .error err) :
    a.normalForm = a := by
  rw [normalForm, h]

end Assign

/-! ## Programs in normal form -/

/-- An error with its own range is the same error. -/
theorem WpError.changeRange_id (e : WpError) : e.changeRange id = e := by
  cases e <;> rfl

/-- A change that concerns nothing. -/
theorem changeResult_id {α : Type} (x : Except WpError α) : changeResult id id x = x := by
  cases x with
  | ok a => rfl
  | error e => exact congrArg Except.error e.changeRange_id

/-- The change that brings every assignment into normal form, as far as it has one. -/
def Change.normalForms : Change where
  assign := Assign.normalForm
  range := id
  range_zero := rfl
  range_cover _ _ := rfl
  range_assign a := by
    cases h : a.normalize with
    | error err => rw [Assign.normalForm_of_error h, id]
    | ok b =>
      obtain ⟨ts, -, -, rfl⟩ := Assign.exists_targets_of_normalize h
      rw [Assign.normalForm_of_normalize h, id]
  wp_assign a post := by
    rw [changeResult_id]
    cases h : a.normalize with
    | error err => rw [Assign.normalForm_of_error h]
    | ok b => rw [Assign.normalForm_of_normalize h, Assign.wp_of_normalize h]

namespace Statement

mutual

/-- A statement that can be normalized becomes the statement with all its assignments in normal
form, which is left as it is when it is normalized again. -/
theorem of_normalize : ∀ (a : Statement) {a' : Statement}, a.normalize = .ok a' →
    a.change .normalForms = a' ∧ a'.normalize = .ok a'
  | .abort r, a', h | .skip r, a', h => by
    simp only [normalize] at h
    cases h
    rw [change, normalize]
    exact ⟨rfl, rfl⟩
  | .assign a, a', h => by
    simp only [normalize] at h
    obtain ⟨b, hb, h⟩ := exists_of_bind_eq_ok h
    cases h
    constructor
    · rw [change]
      exact congrArg Statement.assign (Assign.normalForm_of_normalize hb)
    · rw [normalize, Assign.normalize_normalize hb]
      rfl
  | .cond guards bodies r, a', h => by
    simp only [normalize] at h
    obtain ⟨bodies', hbodies, h⟩ := exists_of_bind_eq_ok h
    cases h
    obtain ⟨hchange, hagain⟩ := of_normalizeBodies bodies hbodies
    constructor
    · rw [change, hchange]
      rfl
    · rw [normalize, hagain]
      rfl
  | .loop guards bodies r, a', h => by
    simp only [normalize] at h
    obtain ⟨bodies', hbodies, h⟩ := exists_of_bind_eq_ok h
    cases h
    obtain ⟨hchange, hagain⟩ := of_normalizeBodies bodies hbodies
    constructor
    · rw [change, hchange]
      rfl
    · rw [normalize, hagain]
      rfl

/-- A normalized sequence consists of the normal forms and is normalized to itself. -/
theorem of_normalizeSeq : ∀ (ss : List Statement) {ss' : List Statement},
    normalizeSeq ss = .ok ss' → changeSeq .normalForms ss = ss' ∧ normalizeSeq ss' = .ok ss'
  | [], ss', h => by
    simp only [normalizeSeq] at h
    cases h
    rw [changeSeq, normalizeSeq]
    exact ⟨rfl, rfl⟩
  | a :: ss, ss', h => by
    simp only [normalizeSeq] at h
    obtain ⟨a', ha, h⟩ := exists_of_bind_eq_ok h
    obtain ⟨rest, hrest, h⟩ := exists_of_bind_eq_ok h
    cases h
    obtain ⟨hfirst, hfirst'⟩ := of_normalize a ha
    obtain ⟨hchange, hagain⟩ := of_normalizeSeq ss hrest
    constructor
    · rw [changeSeq, hfirst, hchange]
    · rw [normalizeSeq, hfirst', hagain]
      rfl

/-- Normalized bodies consist of the normal forms and are normalized to themselves. -/
theorem of_normalizeBodies : ∀ (bs : List (List Statement)) {bs' : List (List Statement)},
    normalizeBodies bs = .ok bs' →
      changeBodies .normalForms bs = bs' ∧ normalizeBodies bs' = .ok bs'
  | [], bs', h => by
    simp only [normalizeBodies] at h
    cases h
    rw [changeBodies, normalizeBodies]
    exact ⟨rfl, rfl⟩
  | b :: bs, bs', h => by
    simp only [normalizeBodies] at h
    obtain ⟨b', hb, h⟩ := exists_of_bind_eq_ok h
    obtain ⟨rest, hrest, h⟩ := exists_of_bind_eq_ok h
    cases h
    obtain ⟨hfirst, hfirst'⟩ := of_normalizeSeq b hb
    obtain ⟨hchange, hagain⟩ := of_normalizeBodies bs hrest
    constructor
    · rw [changeBodies, hfirst, hchange]
    · rw [normalizeBodies, hfirst', hagain]
      rfl

end

end Statement

/-- A program whose assignments are brought into normal form, as far as they have one, has the same
obligations, or lacks them for the same reason. -/
theorem generate_normalForms (spec : Spec) (p : Program) :
    generate spec (p.change .normalForms) = generate spec p := by
  have hframe : Frame.change .normalForms = id := rfl
  have hobligation : Obligation.change .normalForms = id := by
    funext o
    rw [Obligation.change, hframe, List.map_id]
    rfl
  have hrange : Change.normalForms.range = id := rfl
  rw [generate_change, hobligation, hrange, List.map_id_fun, changeResult_id]

/-- Normalizing a program changes nothing in a program that was normalized before, and nothing in
the obligations or in the error that a specification leads to. -/
theorem Program.generate_of_normalize {p p' : Program} (h : p.normalize = .ok p') :
    p'.normalize = .ok p' ∧ ∀ spec : Spec, generate spec p' = generate spec p := by
  obtain ⟨ss, hss, h⟩ := exists_of_bind_eq_ok h
  cases h
  obtain ⟨hchange, hagain⟩ := Statement.of_normalizeSeq p.statements hss
  constructor
  · rw [Program.normalize, hagain]
    rfl
  · intro spec
    have hprogram : p.change .normalForms = ⟨ss⟩ := congrArg Program.mk hchange
    rw [← hprogram, generate_normalForms]

/-- The program `do i < n → a[i], i := x, i + 1 od`, its assignment as given. -/
def fill (step : Assign) : Program where
  statements := [.loop [.comp .lt (.name "i") (.name "n")] [[.assign step]] .zero]

/-- The array is filled with `x` up to `i`. -/
def fillSpec : Spec where
  precondition := .comp .eq (.name "i") (.const 0)
  postcondition := .quant .all "k" (.and (.comp .le (.const 0) (.name "k"))
    (.comp .lt (.name "k") (.name "n"))) (.comp .eq (.var (.select (.name "a") (.name "k")))
      (.name "x"))
  loops := [⟨.quant .all "k" (.and (.comp .le (.const 0) (.name "k"))
    (.comp .lt (.name "k") (.name "i"))) (.comp .eq (.var (.select (.name "a") (.name "k")))
      (.name "x")), .minus (.name "n") (.name "i")⟩]

/-- The element that `fill` writes may as well be a map that is assigned to `a`. -/
theorem fill_generate :
    let next : Expr := .int (.plus (.name "i") (.const 1))
    let p := fill ⟨[.select (.name "a") (.name "i"), .name "i"], [.name "x", next], .zero⟩
    let p' := fill ⟨[.name "a", .name "i"],
      [.map (.store (.name "a") (.name "i") (.name "x")), next], .zero⟩
    p.normalize = .ok p' ∧ (generate fillSpec p).toOption.isSome = true ∧
      p'.normalize = .ok p' ∧ generate fillSpec p' = generate fillSpec p := by
  intro next p p'
  have hstep : Assign.normalize ⟨[.select (.name "a") (.name "i"), .name "i"],
      [.name "x", next], .zero⟩ = .ok ⟨[.name "a", .name "i"],
        [.map (.store (.name "a") (.name "i") (.name "x")), next], .zero⟩ := by
    decide +kernel
  have hp : p.normalize = .ok p' := by
    simp only [p, fill, Program.normalize, Statement.normalizeSeq, Statement.normalize,
      Statement.normalizeBodies, hstep]
    rfl
  obtain ⟨hagain, hgenerate⟩ := Program.generate_of_normalize hp
  exact ⟨hp, by decide +kernel, hagain, hgenerate fillSpec⟩

end GuardedCommand
