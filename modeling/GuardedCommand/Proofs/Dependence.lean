import GuardedCommand.Proofs.ExpansionRules
import GuardedCommand.Prover.Builtin
import GuardedCommand.Prover.Hint

/-! # Dependence on free names

The meaning of a node depends on its free names only. Three tests rely on it: whether a binder has
to be renamed before a substitution, whether a membership may be claimed although a variable is
bound around it, and whether the parameters of a shorthand are all that its body needs. None of them
misses a dependence.

* `Node.DependsOn`: a change of one name can change the meaning of a node.
* `Node.meaning_congr`, `Node.mem_freeNames_of_dependsOn`: the free names are enough.
* `Substitution.under_of_dependsOn`, `membership?_of_dependsOn`,
  `ShorthandDef.mem_args_of_dependsOn`: the three tests.
-/

namespace GuardedCommand

variable {I : Interpretation}

/-- The meaning of a node changes with the value of `x`, in some state. -/
def Node.DependsOn (I : Interpretation) (n : Node) (x : String) : Prop :=
  ∃ s s' : State, (∀ y, y ≠ x → s y = s' y) ∧ n.meaning I s ≠ n.meaning I s'

namespace Node

/-- States that agree on the free names of a node give it the same meaning. -/
theorem meaning_congr (n : Node) {s s' : State} (h : ∀ x ∈ n.freeNames, s x = s' x) :
    n.meaning I s = n.meaning I s' := by
  cases n with
  | predicate p => exact congrArg Meaning.truth (propext (p.holds_congr (m := .free) h))
  | int e => exact congrArg Meaning.value (e.value_congr (m := .free) h)
  | var v => exact congrArg Meaning.value (v.value_congr (m := .free) h)
  | expr e => exact congrArg Meaning.value (e.value_congr (m := .free) h)

/-- A node depends on its free names only. -/
theorem mem_freeNames_of_dependsOn {n : Node} {x : String} (h : n.DependsOn I x) :
    x ∈ n.freeNames := by
  obtain ⟨s, s', hs, hne⟩ := h
  by_contra hx
  exact hne (n.meaning_congr fun y hy => hs y (ne_of_mem_of_not_mem hy hx))

end Node

/-- A binder is renamed where a replacement that is left below it depends on its variable. -/
theorem Substitution.under_of_dependsOn {σ : Substitution} {k x : String} {e : Expr}
    (hpair : (x, e) ∈ σ.pairs) (hx : x ≠ k) (h : (Node.expr e).DependsOn I k) (fresh : FreshNames) :
    σ.under k fresh = some (fresh.next.1, (σ.hide k).rename k fresh.next.1, fresh.next.2) := by
  have hleft : (x, e) ∈ (σ.hide k).pairs := List.mem_filter.mpr ⟨hpair, by simpa using hx⟩
  have hnonempty : ¬ (σ.hide k).pairs.isEmpty = true := by
    rw [List.isEmpty_iff]
    exact List.ne_nil_of_mem hleft
  have hmentions : (σ.hide k).mentions k = true := by
    have hfree : k ∈ e.freeNames := Node.mem_freeNames_of_dependsOn h
    exact List.any_eq_true.mpr ⟨(x, e), hleft, List.contains_iff_mem.mpr hfree⟩
  rw [under, if_neg hnonempty, if_pos hmentions]

/-- In `(E k : c : a[k] = m)` nothing is claimed where `m` depends on `k`, and no axiom is asked
for. -/
theorem membership?_of_dependsOn {k : String} {p : Predicate} {a : Variable} {m : IntExpr}
    (hp : membership? k p = some (a, m)) (h : (Node.int m).DependsOn I k) (c : Predicate) :
    claimContains (.quant .some k c p) = none ∧ p.isMembership k = false := by
  have hfree : m.freeNames.contains k = true :=
    List.contains_iff_mem.mpr (Node.mem_freeNames_of_dependsOn h)
  constructor
  · rw [claimContains, hp]
    exact if_pos hfree
  · unfold membership? at hp
    split at hp
    · next l r =>
      -- Either side may be the element, and the other one mentions `k`.
      cases hl : l.indexedBy? k with
      | some b =>
        rw [hl] at hp
        cases hp
        rw [Predicate.isMembership, hl, hfree]
        rfl
      | none =>
        rw [hl] at hp
        obtain ⟨b, hb, heq⟩ := Option.map_eq_some_iff.mp hp
        cases heq
        rw [Predicate.isMembership, hl, hb, hfree]
        rfl
    · cases hp

/-- The body of a shorthand depends on its parameters only. -/
theorem ShorthandDef.mem_args_of_dependsOn {d : ShorthandDef} {c : Shorthand} {x : String}
    (hcheck : d.check = .ok c) (h : c.body.node.DependsOn I x) : x ∈ d.args := by
  obtain ⟨hgives, hfree⟩ := ShorthandDef.gives_of_check hcheck
  have hx := Node.mem_freeNames_of_dependsOn h
  rw [ShorthandBody.freeNames_node] at hx
  rw [← hgives.params]
  exact hfree x hx

/-- The free names of a node are all that its meaning depends on, for every reading of calls,
aggregates and counts. So no dependence is missed where free names are asked for: a binder that
would catch a replacement is renamed, a membership is not claimed if the compared value changes with
the bound variable, and an accepted shorthand needs its parameters only. -/
theorem Node.meaning_of_freeNames (I : Interpretation) :
    (∀ (n : Node) (s s' : State), (∀ x ∈ n.freeNames, s x = s' x) →
      n.meaning I s = n.meaning I s') ∧
    (∀ (σ : Substitution) (k x : String) (e : Expr), (x, e) ∈ σ.pairs → x ≠ k →
      (Node.expr e).DependsOn I k → ∀ fresh : FreshNames, σ.under k fresh =
        some (fresh.next.1, (σ.hide k).rename k fresh.next.1, fresh.next.2)) ∧
    (∀ (k : String) (c p : Predicate) (a : Variable) (m : IntExpr), membership? k p = some (a, m) →
      (Node.int m).DependsOn I k →
        claimContains (.quant .some k c p) = none ∧ p.isMembership k = false) ∧
    ∀ (d : ShorthandDef) (c : Shorthand) (x : String), d.check = .ok c →
      c.body.node.DependsOn I x → x ∈ d.args :=
  ⟨fun n _ _ => n.meaning_congr,
    fun _ _ _ _ hpair hx h => Substitution.under_of_dependsOn hpair hx h,
    fun _ c _ _ _ hp h => membership?_of_dependsOn hp h c,
    fun _ _ _ hcheck h => ShorthandDef.mem_args_of_dependsOn hcheck h⟩

/-! ## A sample

A name that is bound in one part of a formula and free in another, and the three tests at that
name. -/

namespace Node.Sample

/-- Calls and aggregates stand for nothing in particular. -/
def meaning : Interpretation where
  function _ _ := .int 0
  relation _ _ := False
  fold _ _ _ := 0
  count _ _ := 0

/-- The state in which every name is zero. -/
def zeros : State := fun _ => .int 0

/-- The predicate `k = 2`. -/
def isTwo : Predicate := .comp .eq (.name "k") (.const 2)

/-- The predicate `(A k : 0 ≤ k : a[k] > x) ∧ k = 2`. -/
def shadowed : Predicate :=
  .and (.quant .all "k" (.comp .le (.const 0) (.name "k"))
    (.comp .gt (.var (.select (.name "a") (.name "k"))) (.name "x"))) isTwo

/-- The predicate `a[k] = k`. -/
def fixed : Predicate := .comp .eq (.var (.select (.name "a") (.name "k"))) (.name "k")

/-- A shorthand for `k = 2`. -/
def two : ShorthandDef := ⟨"two", ["k"], isTwo.toJson.compact⟩

/-- A name depends on itself. -/
theorem dependsOn_name : (Node.int (.name "k")).DependsOn meaning "k" := by
  refine ⟨zeros, Function.update zeros "k" (.int 1), fun y hy => ?_, ?_⟩
  · rw [Function.update_of_ne hy]
  · simp [Node.meaning, zeros]

/-- The predicate `k = 2` depends on `k`. -/
theorem dependsOn_isTwo : (Node.predicate isTwo).DependsOn meaning "k" := by
  refine ⟨zeros, Function.update zeros "k" (.int 2), fun y hy => ?_, ?_⟩
  · rw [Function.update_of_ne hy]
  · simp [Node.meaning, isTwo, zeros, Predicate.Holds, CompOp.Compares, IntExpr.value]

/-- The definition of the shorthand passes the check. -/
theorem check_two : two.check = .ok ⟨"two", ["k"], .predicate isTwo⟩ := by
  have hread : ShorthandBody.ofText? isTwo.toJson.compact = some (.predicate isTwo) := by
    refine ShorthandBody.ofText?_of_predicate ?_ (by decide)
    simp [isTwo, Predicate.Fits, IntExpr.Fits, IntExpr.name, Variable.Fits]
  exact ShorthandDef.check_mk rfl hread (by cbv)

/-- The formula does not depend on a name outside it. Under a binder of `k` the name is renamed
before `k` is put in, `a[k] = k` is no membership, and `k` is a parameter of the shorthand. -/
theorem meaning_of_shadowed :
    (∀ x ∈ (Node.predicate shadowed).freeNames,
      zeros x = Function.update zeros "y" (.int 1) x) ∧
    (Node.predicate shadowed).meaning meaning zeros =
      (Node.predicate shadowed).meaning meaning (Function.update zeros "y" (.int 1)) ∧
    (Substitution.single "x" (.int (.name "k"))).under "k" (.avoiding ["k", "x"]) =
      some ("uniqueName0", ⟨[("x", .int (.name "k")), ("k", .name "uniqueName0")]⟩,
        ⟨"uniqueName", 1⟩) ∧
    membership? "k" fixed = some (.name "a", .name "k") ∧
    claimContains (.quant .some "k" (.const true) fixed) = none ∧
    "k" ∈ two.args := by
  obtain ⟨hmeaning, hunder, hclaim, hargs⟩ := Node.meaning_of_freeNames meaning
  have hfree : ∀ x ∈ (Node.predicate shadowed).freeNames,
      zeros x = Function.update zeros "y" (.int 1) x := by
    intro x hx
    refine (Function.update_of_ne ?_ _ _).symm
    rintro rfl
    exact absurd hx (by decide)
  have hpair : ("x", Expr.int (.name "k")) ∈ (Substitution.single "x" (.int (.name "k"))).pairs :=
    List.mem_singleton_self _
  have hfixed : membership? "k" fixed = some (.name "a", .name "k") := by rfl
  refine ⟨hfree, hmeaning _ _ _ hfree, ?_, hfixed, ?_, ?_⟩
  · refine (hunder _ _ _ _ hpair (by decide) dependsOn_name (.avoiding ["k", "x"])).trans ?_
    decide +kernel
  · exact (hclaim "k" (.const true) fixed _ _ hfixed dependsOn_name).1
  · exact hargs two _ "k" check_two dependsOn_isTwo

end Node.Sample

end GuardedCommand
