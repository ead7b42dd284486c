import GuardedCommand.Proofs.Background
import GuardedCommand.Proofs.Failures

/-! # Claims exclude each other

No two built-in triggers claim the same node, and what none of them claims is never in need of one.
So a formula that has a term keeps this term when more axioms are enabled, and no node is ever
claimed twice.

* `Node.claimant?`: the built-in trigger that a node has the shape for, the only one that may claim
  it.
* `Node.needsTrigger`: the nodes that have a term only if they are claimed. All nodes that a
  built-in trigger claims are of this kind.
* `KeptBy`: what a lowering gives, another one gives as well.
* `Node.keptBy_of_smaller`, `Node.keptBy_lower`: one step of lowering, and all of them.
* `Registry.lower_of_more_axioms`: lists of built-in axioms.
-/

namespace GuardedCommand

/-! ## The shape of a node decides on its trigger -/

/-- An element of what is not an element itself is no cell of a matrix. -/
theorem IntExpr.cell?_eq_none {v : Variable} {i : IntExpr} (hv : ∀ u j, v ≠ .select u j) :
    (IntExpr.var (.select v i)).cell? = none := by
  rw [Option.eq_none_iff_forall_ne_some]
  rintro ⟨m, row, col⟩ h
  have hshape := IntExpr.cell?_eq_some_iff.mp h
  injection hshape with hselect
  injection hselect with hbase
  exact hv m row hbase

/-- The only built-in trigger that may claim a node. Sums are told apart by what is summed up, and
products by whether both factors are cells of matrices. -/
def Node.claimant? : Node → Option Trigger
  | .predicate (.quant .some ..) => some .arrayContains
  | .predicate (.perm ..) => some .arrayPerm
  | .int (.fold .prod ..) => some .arrayProd
  | .int (.fold .sum _ _ (.var _)) => some .arraySum
  | .int (.fold .sum _ _ (.fold ..)) => some .matrixSum
  | .int (.fold .sum _ _ (.binary _ x y)) =>
    if x.cell?.isSome && y.cell?.isSome then some .rowColumn else some .rowVector
  | _ => none

section

variable {e : IntExpr} {p : Predicate} {c : Claim}

/-- What is claimed as the sum of an array has its shape. -/
theorem claimant?_of_claimArraySum (h : claimArraySum e = some c) :
    (Node.int e).claimant? = some .arraySum := by
  unfold claimArraySum at h
  split at h
  · obtain ⟨a, b, rfl, -, -⟩ := Idiom.claimArrayFold_eq_some_iff.mp h
    rfl
  · cases h

/-- What is claimed as the product of an array has its shape. -/
theorem claimant?_of_claimArrayProd (h : claimArrayProd e = some c) :
    (Node.int e).claimant? = some .arrayProd := by
  unfold claimArrayProd at h
  split at h
  · rfl
  · cases h

/-- What is claimed as the existence of an element has its shape. -/
theorem claimant?_of_claimContains (h : claimContains p = some c) :
    (Node.predicate p).claimant? = some .arrayContains := by
  unfold claimContains at h
  split at h
  · rfl
  · cases h

/-- What is claimed as a permutation has its shape. -/
theorem claimant?_of_claimPerm (h : claimPerm p = some c) :
    (Node.predicate p).claimant? = some .arrayPerm := by
  unfold claimPerm at h
  split at h
  · rfl
  · cases h

/-- What is claimed as the sum of a matrix has its shape. -/
theorem claimant?_of_claimMatrixSum (h : claimMatrixSum e = some c) :
    (Node.int e).claimant? = some .matrixSum := by
  unfold claimMatrixSum at h
  split at h
  · rfl
  · cases h

/-- What is claimed as the product of a row and a column has its shape. -/
theorem claimant?_of_claimRowColumn (h : claimRowColumn e = some c) :
    (Node.int e).claimant? = some .rowColumn := by
  unfold claimRowColumn at h
  split at h
  · simp only [Option.bind_eq_bind, Option.bind_eq_some_iff, rowColumn?] at h
    obtain ⟨-, ⟨left, hleft, right, hright, -⟩, -⟩ := h
    simp [Node.claimant?, hleft, hright]
  · cases h

/-- The vector of a product is not an element itself, so its factor is not a cell. -/
theorem claimant?_of_claimRowVector (h : claimRowVector e = some c) :
    (Node.int e).claimant? = some .rowVector := by
  unfold claimRowVector at h
  split at h
  · simp only [Option.bind_eq_bind, Option.bind_eq_some_iff] at h
    obtain ⟨⟨row, a, v⟩, hvector, -⟩ := h
    obtain ⟨hv, hproduct⟩ := Idiom.product_of_rowVector? hvector
    cases hproduct with
    | inOrder | swapped => simp [Node.claimant?, IntExpr.cell?_eq_none hv]
  · cases h

end

namespace Trigger

variable {t t' : Trigger} {n : Node} {c c' : Claim}

/-- A built-in trigger claims only nodes of the shape that it is for. -/
theorem claimant?_of_claimOn (ht : t ∈ builtin) (h : t.claimOn n = some c) :
    n.claimant? = some t := by
  simp only [builtin, List.mem_cons, List.not_mem_nil, or_false] at ht
  cases n with
  | predicate p =>
    rcases ht with rfl | rfl | rfl | rfl | rfl | rfl | rfl
    case inr.inr.inl => exact claimant?_of_claimContains h
    case inr.inr.inr.inl => exact claimant?_of_claimPerm h
    all_goals cases h
  | int e =>
    rcases ht with rfl | rfl | rfl | rfl | rfl | rfl | rfl
    · exact claimant?_of_claimArraySum h
    · exact claimant?_of_claimArrayProd h
    · cases h
    · cases h
    · exact claimant?_of_claimMatrixSum h
    · exact claimant?_of_claimRowColumn h
    · exact claimant?_of_claimRowVector h
  | var v => rcases ht with rfl | rfl | rfl | rfl | rfl | rfl | rfl <;> cases h
  | expr e => cases h

/-- No node is claimed by two built-in triggers. -/
theorem eq_of_claimOn (ht : t ∈ builtin) (ht' : t' ∈ builtin) (h : t.claimOn n = some c)
    (h' : t'.claimOn n = some c') : t = t' := by
  have hsame := (claimant?_of_claimOn ht h).symm.trans (claimant?_of_claimOn ht' h')
  exact Option.some.inj hsame

end Trigger

/-! ## Nodes in need of a trigger -/

/-- Whether a node has a term only if a trigger claims it. -/
def Node.needsTrigger : Node → Bool
  | .predicate (.perm ..) => true
  | .predicate (.quant .some k _ p) => p.isMembership k
  | .int (.fold ..) | .int (.count ..) => true
  | _ => false

/-- What the idiom takes for the existence of an element, lowering takes for it as well. -/
theorem Predicate.isMembership_of_equation {k : String} {p : Predicate} {a : Variable} {m : IntExpr}
    (h : Equation (.var (.select a (.name k))) m p) (hm : k ∉ m.freeNames) :
    p.isMembership k = true := by
  have ha : (IntExpr.var (.select a (.name k))).indexedBy? k = some a :=
    IntExpr.indexedBy?_eq_some_iff.mpr rfl
  cases h with
  | inOrder => simp [isMembership, ha, hm]
  | swapped => simp [isMembership, IntExpr.indexedBy?_eq_none hm, ha, hm]

/-- Built-in triggers claim only nodes that need one. -/
theorem Trigger.needsTrigger_of_claimOn {t : Trigger} {n : Node} {c : Claim} (ht : t ∈ builtin)
    (h : t.claimOn n = some c) : n.needsTrigger = true := by
  cases Idiom.of_claimOn ht h with
  | sum | prod | perm | matrix | rowColumn | rowVector => rfl
  | contains _ hp hm => exact Predicate.isMembership_of_equation hp hm

/-! ## Lists of claims -/

/-- Built-in triggers, none of them twice. -/
structure Trigger.Chosen (ts : List Trigger) : Prop where
  /-- All are built-in. -/
  builtin : ∀ t ∈ ts, t ∈ Trigger.builtin
  /-- None comes twice. -/
  nodup : ts.Nodup

namespace Trigger

variable {ts ts' : List Trigger} {n : Node}

/-- If no trigger claims a node, there are no claims. -/
theorem claims_eq_nil {ask : Trigger → Option Claim} (h : ∀ t ∈ ts, ask t = none) :
    claims ask ts = [] := by
  rw [claims, List.filterMap_eq_nil_iff]
  intro t ht
  rw [h t ht]
  rfl

/-- The claim of a chosen trigger is the only one. -/
theorem Chosen.claims_eq (hts : Chosen ts) {t : Trigger} {c : Claim} (ht : t ∈ ts)
    (h : t.claimOn n = some c) : claims (·.claimOn n) ts = [(t.name, c)] := by
  obtain ⟨before, after, rfl⟩ := List.append_of_mem ht
  -- a second claim would be one of the same trigger at another place
  have hother : ∀ u ∈ before ++ after, u.claimOn n = none := by
    intro u hu
    rw [Option.eq_none_iff_forall_ne_some]
    intro d hd
    have hmem : u ∈ before ++ t :: after := by
      rcases List.mem_append.mp hu with hu | hu
      · exact List.mem_append_left _ hu
      · exact List.mem_append_right _ (List.mem_cons_of_mem t hu)
    obtain rfl := eq_of_claimOn (hts.builtin u hmem) (hts.builtin t ht) hd h
    exact (List.nodup_middle.mp hts.nodup).notMem hu
  have hbefore := claims_eq_nil fun u hu => hother u (List.mem_append_left _ hu)
  have hafter := claims_eq_nil fun u hu => hother u (List.mem_append_right _ hu)
  rw [claims] at hbefore hafter ⊢
  rw [List.filterMap_append, hbefore, List.filterMap_cons, h, hafter]
  rfl

/-- With more triggers a node keeps its claim, or it had none. In that case it was in need of one,
or it still has none. -/
theorem Chosen.claims_cases (hts : Chosen ts) (hts' : Chosen ts') (hsub : ts ⊆ ts') (n : Node) :
    (∃ t ∈ ts, ∃ c, t.claimOn n = some c ∧ claims (·.claimOn n) ts = [(t.name, c)] ∧
      claims (·.claimOn n) ts' = [(t.name, c)]) ∨
    claims (·.claimOn n) ts = [] ∧
      (n.needsTrigger = true ∨ claims (·.claimOn n) ts' = []) := by
  by_cases hclaimed : ∃ t ∈ ts, ∃ c, t.claimOn n = some c
  · obtain ⟨t, ht, c, hc⟩ := hclaimed
    exact .inl ⟨t, ht, c, hc, hts.claims_eq ht hc, hts'.claims_eq (hsub ht) hc⟩
  · have hnone : ∀ t ∈ ts, t.claimOn n = none := by
      intro t ht
      rw [Option.eq_none_iff_forall_ne_some]
      exact fun c hc => hclaimed ⟨t, ht, c, hc⟩
    refine .inr ⟨claims_eq_nil hnone, ?_⟩
    by_cases hneeds : n.needsTrigger = true
    · exact .inl hneeds
    · refine .inr (claims_eq_nil fun t ht => ?_)
      rw [Option.eq_none_iff_forall_ne_some]
      exact fun c hc => hneeds (needsTrigger_of_claimOn (hts'.builtin t ht) hc)

end Trigger

/-! ## Lowering with more triggers -/

/-- The errors that say that a node is in need of a trigger. -/
def LowerError.IsMissing : LowerError → Prop
  | .noTermForPredicate _ | .noTermForInt _ => True
  | .ambiguous .. | .unknownAxiom _ => False

/-- Whatever `x` gives, `y` gives as well, and `x` fails only for want of a trigger. -/
structure KeptBy {α : Type} (x y : Except LowerError α) : Prop where
  /-- The same result. -/
  eq_ok : ∀ a, x = .ok a → y = .ok a
  /-- No other errors. -/
  missing : FailsOnly LowerError.IsMissing x

namespace KeptBy

variable {α β : Type} {x y : Except LowerError α} {f g : α → Except LowerError β}

/-- A result is kept. -/
theorem ok (a : α) : KeptBy (.ok a) (.ok a) :=
  ⟨fun _ h => h, FailsOnly.ok a⟩

/-- An error for want of a trigger is replaced by anything. -/
theorem error {e : LowerError} (he : e.IsMissing) : KeptBy (.error e) y :=
  ⟨fun _ h => (by cases h), FailsOnly.error he⟩

/-- What is kept is kept under a function. -/
theorem map (h : KeptBy x y) (u : α → β) : KeptBy (x.map u) (y.map u) := by
  cases hx : x with
  | error e => exact error (h.missing e hx)
  | ok a =>
    rw [h.eq_ok a hx]
    exact ok (u a)

/-- What is kept is kept through a further step. -/
theorem bind (h : KeptBy x y) (hfg : ∀ a, KeptBy (f a) (g a)) :
    KeptBy (x >>= f) (y >>= g) := by
  constructor
  · intro b hb
    obtain ⟨a, ha, hb⟩ := exists_of_bind_eq_ok hb
    rw [h.eq_ok a ha]
    exact (hfg a).eq_ok b hb
  · exact h.missing.bind fun a _ => (hfg a).missing

end KeptBy

section

variable {ts ts' : List Trigger}

/-- The terms of arguments are kept, if that of each argument is. -/
theorem Expr.keptBy_lowerAll {es : List Expr}
    (h : ∀ e ∈ es, KeptBy (e.lower ts) (e.lower ts')) :
    KeptBy (Expr.lowerAll ts es) (Expr.lowerAll ts' es) := by
  induction es with
  | nil =>
    rw [Expr.lowerAll, Expr.lowerAll]
    exact .ok []
  | cons e es ih =>
    rw [List.forall_mem_cons] at h
    rw [Expr.lowerAll, Expr.lowerAll]
    exact h.1.bind fun t => (ih h.2).bind fun rest => .ok (t :: rest)

/-- The term of a claim is kept, if those of its parts are. -/
theorem Claim.keptBy_lower {c : Claim} (h : ∀ e ∈ c.parts, KeptBy (e.lower ts) (e.lower ts')) :
    KeptBy (c.lower ts) (c.lower ts') := by
  cases c with
  | fixed t => exact .ok t
  | apply head parts => exact (Expr.keptBy_lowerAll h).map (Term.apply head)

/-- Predicates that are not claimed, if the statement is true of everything smaller. -/
theorem Predicate.keptBy_lowerParts (p : Predicate)
    (ih : ∀ n : Node, n.size < p.size → KeptBy (n.lower ts) (n.lower ts')) :
    KeptBy (p.lowerParts ts) (p.lowerParts ts') := by
  have hpredicate : ∀ q : Predicate, q.size < p.size → KeptBy (q.lower ts) (q.lower ts') :=
    fun q => ih (.predicate q)
  cases p with
  | const b => exact .ok _
  | not q => exact (hpredicate q (by rw [Predicate.size]; omega)).bind fun t => .ok _
  | binary op l r =>
    refine (hpredicate l (by rw [Predicate.size]; omega)).bind fun t => ?_
    exact (hpredicate r (by rw [Predicate.size]; omega)).bind fun u => .ok _
  | comp op l r =>
    refine (ih (.int l) (by rw [Node.size, Predicate.size]; omega)).bind fun t => ?_
    exact (ih (.int r) (by rw [Node.size, Predicate.size]; omega)).bind fun u => .ok _
  | call f args =>
    refine (Expr.keptBy_lowerAll fun e he => ih (.expr e) ?_).bind fun ts => .ok _
    have := Expr.size_le_sizeAll he
    rw [Node.size, Predicate.size]
    omega
  | perm a b n => exact .error trivial
  | quant q k c inner =>
    have hc := hpredicate c (by rw [Predicate.size]; omega)
    have hinner := hpredicate inner (by rw [Predicate.size]; omega)
    cases q with
    | all =>
      refine hc.bind fun condition => hinner.bind fun t => ?_
      -- the hint is searched in the formula and does not depend on the triggers
      cases hhint : inner.hint? k with
      | none => exact .ok _
      | some v =>
        have hsize := inner.size_hint? hhint
        refine (ih (.var v) ?_).bind fun hint => .ok _
        rw [Node.size, Predicate.size]
        omega
    | some =>
      rw [lowerParts, lowerParts]
      split
      · exact .error trivial
      · exact hc.bind fun condition => hinner.bind fun t => .ok _

/-- Integer expressions that are not claimed, if the statement is true of everything smaller. -/
theorem IntExpr.keptBy_lowerParts (e : IntExpr)
    (ih : ∀ n : Node, n.size < e.size → KeptBy (n.lower ts) (n.lower ts')) :
    KeptBy (e.lowerParts ts) (e.lowerParts ts') := by
  cases e with
  | const c => exact .ok _
  | var v => exact ih (.var v) (by rw [Node.size, IntExpr.size]; omega)
  | negate d => exact (ih (.int d) (by rw [Node.size, IntExpr.size]; omega)).bind fun t => .ok _
  | binary op l r =>
    refine (ih (.int l) (by rw [Node.size, IntExpr.size]; omega)).bind fun t => ?_
    exact (ih (.int r) (by rw [Node.size, IntExpr.size]; omega)).bind fun u => .ok _
  | call f args =>
    refine (Expr.keptBy_lowerAll fun d hd => ih (.expr d) ?_).bind fun ts => .ok _
    have := Expr.size_le_sizeAll hd
    rw [Node.size, IntExpr.size]
    omega
  | fold op k c d => exact .error trivial
  | count k c p => exact .error trivial

/-- Variables that are not claimed, if the statement is true of everything smaller. -/
theorem Variable.keptBy_lowerParts (v : Variable)
    (ih : ∀ n : Node, n.size < v.size → KeptBy (n.lower ts) (n.lower ts')) :
    KeptBy (v.lowerParts ts) (v.lowerParts ts') := by
  cases v with
  | name x => exact .ok _
  | select b i =>
    refine (ih (.var b) (by rw [Node.size, Variable.size]; omega)).bind fun t => ?_
    exact (ih (.int i) (by rw [Node.size, Variable.size]; omega)).bind fun u => .ok _
  | store b i e =>
    refine (ih (.var b) (by rw [Node.size, Variable.size]; omega)).bind fun t => ?_
    refine (ih (.int i) (by rw [Node.size, Variable.size]; omega)).bind fun u => ?_
    exact (ih (.expr e) (by rw [Node.size, Variable.size]; omega)).bind fun w => .ok _

namespace Node

/-- Nodes that are not claimed, if the statement is true of everything smaller. -/
theorem keptBy_lowerParts (n : Node)
    (ih : ∀ m : Node, m.size < n.size → KeptBy (m.lower ts) (m.lower ts')) :
    KeptBy (n.lowerParts ts) (n.lowerParts ts') := by
  cases n with
  | predicate p => exact p.keptBy_lowerParts ih
  | int e => exact e.keptBy_lowerParts ih
  | var v => exact v.keptBy_lowerParts ih
  | expr e =>
    rw [lowerParts, lowerParts]
    cases e with
    | map v =>
      rw [Expr.lower, Expr.lower]
      exact ih (.var v) (by rw [size, size, Expr.size]; omega)
    | int e =>
      rw [Expr.lower, Expr.lower]
      exact ih (.int e) (by rw [size, size, Expr.size]; omega)

/-- A node in need of a trigger that none claims has no term. -/
theorem lowerParts_of_needsTrigger (ts : List Trigger) {n : Node} (h : n.needsTrigger = true) :
    ∃ e : LowerError, n.lowerParts ts = .error e ∧ e.IsMissing := by
  unfold needsTrigger at h
  split at h
  · exact ⟨_, rfl, trivial⟩
  · exact ⟨_, if_pos h, trivial⟩
  · exact ⟨_, rfl, trivial⟩
  · exact ⟨_, rfl, trivial⟩
  · cases h

/-- One step of lowering with more triggers, if the statement is true of everything smaller. -/
theorem keptBy_of_smaller (hts : Trigger.Chosen ts) (hts' : Trigger.Chosen ts') (hsub : ts ⊆ ts')
    (n : Node) (ih : ∀ m : Node, m.size < n.size → KeptBy (m.lower ts) (m.lower ts')) :
    KeptBy (n.lower ts) (n.lower ts') := by
  rcases hts.claims_cases hts' hsub n with
    ⟨t, ht, c, hc, hclaims, hclaims'⟩ | ⟨hnone, hneeds | hnone'⟩
  · -- the same claim, whose parts are smaller
    rw [lower_of_claims hclaims, lower_of_claims hclaims']
    exact Claim.keptBy_lower fun e he => ih (.expr e) (Trigger.size_lt_of_claimOn hc he)
  · obtain ⟨e, herror, he⟩ := lowerParts_of_needsTrigger ts hneeds
    rw [lower_of_unclaimed hnone, herror]
    exact .error he
  · rw [lower_of_unclaimed hnone, lower_of_unclaimed hnone']
    exact n.keptBy_lowerParts ih

/-- With more built-in triggers a node that has a term keeps it. -/
theorem keptBy_lower (hts : Trigger.Chosen ts) (hts' : Trigger.Chosen ts') (hsub : ts ⊆ ts')
    (n : Node) : KeptBy (n.lower ts) (n.lower ts') :=
  keptBy_of_smaller hts hts' hsub n fun m _ => keptBy_lower hts hts' hsub m
termination_by n.size

end Node

end

/-! ## Built-in axioms -/

namespace Registry

variable {r : Registry} {chosen : List Axiom} {names names' : List String}

/-- The axiom of a name has this name. -/
theorem name_of_get? {name : String} {a : Axiom} (h : r.get? name = some a) : a.name = name := by
  simpa using List.find?_some h

/-- Names of axioms can be enabled. What is enabled are the axioms of these names, each once, beyond
those that were chosen before. -/
theorem enableAfter_of_known (hchosen : ∀ a ∈ chosen, r.get? a.name = some a)
    (hnodup : (chosen.map Axiom.name).Nodup) (hnames : ∀ x ∈ names, (r.get? x).isSome) :
    ∃ axioms, r.enableAfter chosen names = .ok axioms ∧ (axioms.map Axiom.name).Nodup ∧
      ∀ a, a ∈ axioms ↔ a ∈ chosen ∨ ∃ x ∈ names, r.get? x = some a := by
  induction names generalizing chosen with
  | nil => exact ⟨chosen, rfl, hnodup, by simp⟩
  | cons name names ih =>
    rw [List.forall_mem_cons] at hnames
    obtain ⟨a, ha⟩ := Option.isSome_iff_exists.mp hnames.1
    have hname : a.name = name := name_of_get? ha
    by_cases hknown : ∃ b ∈ chosen, b.name = a.name
    · -- the axiom is chosen already, for no other has its name
      obtain ⟨b, hb, hbname⟩ := hknown
      have hmem : a ∈ chosen := by
        have hsame := hchosen b hb
        rw [hbname, hname, ha] at hsame
        exact Option.some.inj hsame ▸ hb
      obtain ⟨axioms, henable, hresult, hiff⟩ := ih hchosen hnodup hnames.2
      refine ⟨axioms, ?_, hresult, fun c => ?_⟩
      · simp only [enableAfter, ha]
        rw [if_pos (by simpa using ⟨b, hb, hbname⟩), henable]
      · rw [hiff, List.exists_mem_cons_iff, ha, Option.some.injEq]
        constructor
        · exact Or.imp_right Or.inr
        · rintro (hc | rfl | hc)
          · exact .inl hc
          · exact .inl hmem
          · exact .inr hc
    · -- a new axiom is chosen, and what is known of the chosen ones is true of it as well
      have hchosen' : ∀ b ∈ chosen ++ [a], r.get? b.name = some b := by
        rw [List.forall_mem_append, List.forall_mem_singleton, hname]
        exact ⟨hchosen, ha⟩
      have hnodup' : ((chosen ++ [a]).map Axiom.name).Nodup := by
        rw [List.map_append, List.map_singleton, List.nodup_append_comm, List.singleton_append,
          List.nodup_cons]
        exact ⟨by simpa using hknown, hnodup⟩
      obtain ⟨axioms, henable, hresult, hiff⟩ := ih hchosen' hnodup' hnames.2
      refine ⟨axioms, ?_, hresult, fun c => ?_⟩
      · simp only [enableAfter, ha]
        rw [if_neg (by simpa using hknown), henable]
      · rw [hiff, List.exists_mem_cons_iff, List.mem_append, List.mem_singleton, ha,
          Option.some.injEq, eq_comm (a := c), or_assoc]

/-- A built-in trigger belongs to the axiom of its name. -/
theorem get?_builtin {t : Trigger} (ht : t ∈ Trigger.builtin) :
    ∃ a, builtin.get? t.name = some a ∧ a.trigger? = some t := by
  simp only [Trigger.builtin, List.mem_cons, List.not_mem_nil, or_false] at ht
  rcases ht with rfl | rfl | rfl | rfl | rfl | rfl | rfl <;> exact ⟨_, rfl, rfl⟩

/-- Names of built-in axioms enable the triggers of these names, in some order and each once. -/
theorem enable_builtin (hnames : ∀ x ∈ names, x ∈ Trigger.builtin.map Trigger.name) :
    ∃ axioms, builtin.enable names = .ok axioms ∧ Trigger.Chosen (Axiom.triggers axioms) ∧
      ∀ t, t ∈ Axiom.triggers axioms ↔ t ∈ Trigger.builtin ∧ t.name ∈ names := by
  have hfound : ∀ x ∈ names, ∃ t ∈ Trigger.builtin, t.name = x ∧
      ∃ a, builtin.get? x = some a ∧ a.trigger? = some t := by
    intro x hx
    obtain ⟨t, ht, rfl⟩ := List.mem_map.mp (hnames x hx)
    exact ⟨t, ht, rfl, get?_builtin ht⟩
  have hknown : ∀ x ∈ names, (builtin.get? x).isSome := by
    intro x hx
    obtain ⟨-, -, -, a, ha, -⟩ := hfound x hx
    exact Option.isSome_iff_exists.mpr ⟨a, ha⟩
  have hnone : ∀ a ∈ ([] : List Axiom), builtin.get? a.name = some a := fun _ ha => by cases ha
  obtain ⟨axioms, henable, hnodup, hiff⟩ := enableAfter_of_known hnone List.nodup_nil hknown
  simp only [List.not_mem_nil, false_or] at hiff
  have htrigger : ∀ a ∈ axioms, ∃ t ∈ Trigger.builtin, t.name = a.name ∧ a.name ∈ names ∧
      a.trigger? = some t := by
    intro a ha
    obtain ⟨x, hx, hget⟩ := (hiff a).mp ha
    obtain ⟨t, ht, htx, b, hb, hbt⟩ := hfound x hx
    obtain rfl : a = b := Option.some.inj (hget.symm.trans hb)
    rw [name_of_get? hget]
    exact ⟨t, ht, htx, hx, hbt⟩
  have hmem : ∀ t, t ∈ Axiom.triggers axioms ↔ t ∈ Trigger.builtin ∧ t.name ∈ names := by
    intro t
    rw [Axiom.triggers, List.mem_filterMap]
    constructor
    · rintro ⟨a, ha, hat⟩
      obtain ⟨u, hu, hname, hx, hau⟩ := htrigger a ha
      obtain rfl : t = u := Option.some.inj (hat.symm.trans hau)
      exact ⟨hu, hname ▸ hx⟩
    · rintro ⟨ht, hx⟩
      obtain ⟨a, ha, hat⟩ := get?_builtin ht
      exact ⟨a, (hiff a).mpr ⟨t.name, hx, ha⟩, hat⟩
  refine ⟨axioms, henable, ⟨fun t ht => ((hmem t).mp ht).1, ?_⟩, hmem⟩
  -- the triggers have the names of their axioms, which are different
  have hsame : (Axiom.triggers axioms).map Trigger.name = axioms.map Axiom.name := by
    rw [Axiom.triggers, List.map_filterMap, ← List.filterMap_eq_map]
    refine List.filterMap_congr fun a ha => ?_
    obtain ⟨t, -, hname, -, hat⟩ := htrigger a ha
    rw [hat, Option.map_some, hname]
    rfl
  exact List.Nodup.of_map Trigger.name (hsame ▸ hnodup)

/-- Two built-in triggers never claim the same node. So with built-in axioms, asked for in any order
and any number of times, no node has more than one claim, and with more of them a node that has a
term keeps this term. -/
theorem lower_of_more_axioms (hnames : ∀ x ∈ names', x ∈ Trigger.builtin.map Trigger.name)
    (hsub : names ⊆ names') :
    (∀ (n : Node) (t t' : Trigger) (c c' : Claim), t ∈ Trigger.builtin → t' ∈ Trigger.builtin →
      t.claimOn n = some c → t'.claimOn n = some c' → t = t') ∧
    ∃ axioms axioms', builtin.enable names = .ok axioms ∧ builtin.enable names' = .ok axioms' ∧
      ∀ n : Node,
        (∀ kind claimants,
          n.lower (Axiom.triggers axioms) ≠ .error (.ambiguous kind claimants)) ∧
        ∀ t, n.lower (Axiom.triggers axioms) = .ok t → n.lower (Axiom.triggers axioms') = .ok t := by
  refine ⟨fun n t t' c c' => Trigger.eq_of_claimOn, ?_⟩
  obtain ⟨axioms, henable, hchosen, hmem⟩ := enable_builtin fun x hx => hnames x (hsub hx)
  obtain ⟨axioms', henable', hchosen', hmem'⟩ := enable_builtin hnames
  have htriggers : Axiom.triggers axioms ⊆ Axiom.triggers axioms' := by
    intro t ht
    obtain ⟨hbuiltin, hname⟩ := (hmem t).mp ht
    exact (hmem' t).mpr ⟨hbuiltin, hsub hname⟩
  refine ⟨axioms, axioms', henable, henable', fun n => ?_⟩
  have hkept := n.keptBy_lower hchosen hchosen' htriggers
  exact ⟨fun kind claimants => hkept.missing.ne_error id, hkept.eq_ok⟩

/-- The formula `(A i : 0 ≤ i : (E k : 0 ≤ k ∧ k < n : a[k] = b[i]))`: `a` contains all of `b`. -/
def containsAll : Predicate :=
  let i : IntExpr := .name "i"
  let k : IntExpr := .name "k"
  .quant .all "i" (.comp .le (.const 0) i)
    (.quant .some "k" (.and (.comp .le (.const 0) k) (.comp .lt k (.name "n")))
      (.comp .eq (.var (.select (.name "a") k)) (.var (.select (.name "b") i))))

/-- One axiom is enough to lower the formula, and three, one of them asked for twice, do not change
its term. -/
theorem containsAll_keeps_term :
    ["ARRAY_CONTAINS"] ⊆ ["ARRAY_SUM", "ROW_ON_VEC_DOTPROD", "ARRAY_CONTAINS", "ARRAY_SUM"] ∧
    ∃ axioms axioms' t, builtin.enable ["ARRAY_CONTAINS"] = .ok axioms ∧
      builtin.enable ["ARRAY_SUM", "ROW_ON_VEC_DOTPROD", "ARRAY_CONTAINS", "ARRAY_SUM"] =
        .ok axioms' ∧
      containsAll.lower (Axiom.triggers axioms) = .ok t ∧
      containsAll.lower (Axiom.triggers axioms') = .ok t ∧
      t.render = "(FORALL (i) (PATS (select b i)) " ++
        "(IMPLIES (<= 0 i) (contains 0 (- n 1) a (select b i))))" := by
  have hsub : ["ARRAY_CONTAINS"] ⊆
      ["ARRAY_SUM", "ROW_ON_VEC_DOTPROD", "ARRAY_CONTAINS", "ARRAY_SUM"] := by decide
  have hnames : ∀ x ∈ ["ARRAY_SUM", "ROW_ON_VEC_DOTPROD", "ARRAY_CONTAINS", "ARRAY_SUM"],
      x ∈ Trigger.builtin.map Trigger.name := by decide
  refine ⟨hsub, ?_⟩
  obtain ⟨-, axioms, axioms', henable, henable', hlower⟩ := lower_of_more_axioms hnames hsub
  obtain ⟨t, ht, htext⟩ : ∃ t, containsAll.lower (Axiom.triggers axioms) = .ok t ∧
      t.render = "(FORALL (i) (PATS (select b i)) " ++
        "(IMPLIES (<= 0 i) (contains 0 (- n 1) a (select b i))))" := by
    cases henable
    have htext : (containsAll.lower [.arrayContains]).map Term.render =
        .ok ("(FORALL (i) (PATS (select b i)) " ++
          "(IMPLIES (<= 0 i) (contains 0 (- n 1) a (select b i))))") := by cbv
    exact exists_of_map_eq_ok htext
  exact ⟨axioms, axioms', t, henable, henable', ht, (hlower (.predicate containsAll)).2 t ht, htext⟩

end Registry

end GuardedCommand
