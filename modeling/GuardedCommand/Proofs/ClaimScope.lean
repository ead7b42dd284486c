import GuardedCommand.Proofs.Idioms
import GuardedCommand.Prover.Lowering

/-! # Scope of claims

A claim takes parts of a node out of the binders of the node, and nothing but counting says whether
a bound variable leaves its binder with them. An idiom uses its bound variables at some places of
its own; any other occurrence in their scope is in a part.

* `Node.scope`, `Node.places`: the names in the scope of the binders, and the places of the idiom.
* `Idiom.count_scope`: every name in the scope is in a part or at one of the places.
* `Trigger.mem_freeNames_of_claimOn`: which names occur in the parts of a claim.
-/

namespace GuardedCommand

namespace Node

/-- The names that occur in the scope of the binders of a node, once for each occurrence. -/
def scope : Node → List String
  | .int (.fold .sum _ c (.fold .sum _ d e)) => c.freeNames ++ d.freeNames ++ e.freeNames
  | .int (.fold _ _ c e) => c.freeNames ++ e.freeNames
  | .predicate (.quant _ _ c p) => c.freeNames ++ p.freeNames
  | n => n.freeNames

/-- The places at which an idiom uses its bound variables: both ends of the range, and the index of
each factor. -/
def places : Node → List String
  | .int (.fold .sum i _ (.fold .sum j _ _)) => [i, i, i, j, j, j]
  | .int (.fold _ k _ (.binary ..)) => [k, k, k, k]
  | .int (.fold _ k _ _) => [k, k, k]
  | .predicate (.quant _ k _ _) => [k, k, k]
  | _ => []

end Node

/-! ## Occurrences -/

section

variable {k x : String} {p c : Predicate}

/-- A comparison mentions the end that it gives and, once more, the bound variable. -/
theorem Ends.count_freeNames {r : RangeEnd} (h : Ends k p r) :
    p.freeNames.count x = r.value.freeNames.count x + [k].count x := by
  cases h with
  | _ => simp [RangeEnd.value, IntExpr.plus, IntExpr.minus, List.count_cons]

/-- A range mentions its ends and, twice more, the bound variable. -/
theorem Range.count_freeNames {b : Bounds} (h : Range k c b) :
    c.freeNames.count x =
      b.lo.freeNames.count x + b.hi.freeNames.count x + [k, k].count x := by
  cases h with
  | lowerFirst hp hq | upperFirst hp hq =>
    rw [Predicate.freeNames_binary, List.count_append, hp.count_freeNames, hq.count_freeNames]
    simp only [RangeEnd.value, List.count_cons, List.count_nil]
    omega

/-- A product mentions what its factors mention. -/
theorem Product.count_freeNames {y z e : IntExpr} (h : Product y z e) :
    e.freeNames.count x = y.freeNames.count x + z.freeNames.count x := by
  cases h with
  | inOrder => rw [IntExpr.freeNames_binary, List.count_append]
  | swapped => rw [IntExpr.freeNames_binary, List.count_append, Nat.add_comm]

/-- An equation mentions what its sides mention. -/
theorem Equation.count_freeNames {y z : IntExpr} (h : Equation y z p) :
    p.freeNames.count x = y.freeNames.count x + z.freeNames.count x := by
  cases h with
  | inOrder => rw [Predicate.freeNames_comp, List.count_append]
  | swapped => rw [Predicate.freeNames_comp, List.count_append, Nat.add_comm]

end

/-- Every name in the scope of the binders is in a part of the claim or at a place of the idiom. -/
theorem Idiom.count_scope {n : Node} {c : Claim} (h : Idiom n c) (x : String) :
    n.scope.count x = c.freeNames.count x + n.places.count x := by
  cases h with
  | sum hc | prod hc =>
    simp [Node.scope, Node.places, hc.count_freeNames, List.count_cons]
    omega
  | contains hc hp _ =>
    simp [Node.scope, Node.places, hc.count_freeNames, hp.count_freeNames, List.count_cons]
    omega
  | perm => simp [Node.scope, Node.places, Node.freeNames]
  | matrix hc hd =>
    -- the names of both conditions count, so it does not matter whether `i` and `j` differ
    simp [Node.scope, Node.places, hc.count_freeNames, hd.count_freeNames, List.count_cons]
    omega
  | rowColumn hc he | rowVector hc _ he =>
    -- the order of the factors is gone once their names are counted
    have hproduct := he.count_freeNames (x := x)
    obtain ⟨y, z, rfl⟩ := he.exists_mult
    simp [Node.scope, Node.places, hc.count_freeNames, List.count_cons] at hproduct ⊢
    omega

/-! ## Names in the parts -/

namespace Node

variable {n : Node} {x : String}

/-- Apart from the bound variables the names in the scope are the free names of the node. -/
theorem mem_scope_iff (hx : x ∉ n.binders) : x ∈ n.scope ↔ x ∈ n.freeNames := by
  unfold scope
  split
  · -- a sum of sums, whose inner binder takes `j` away before the outer takes `i`
    simp only [binders, List.mem_cons, List.not_mem_nil, or_false, not_or] at hx
    simp only [List.mem_append, freeNames, IntExpr.mem_freeNames_fold]
    tauto
  · -- one binder, since the inner expression is not the sum of a sum
    rename_i hinner
    rw [binders, List.mem_singleton] at hx
    · simp only [List.mem_append, freeNames, IntExpr.mem_freeNames_fold]
      tauto
    · exact hinner
  · simp only [binders, List.mem_singleton] at hx
    simp only [List.mem_append, freeNames, Predicate.mem_freeNames_quant]
    tauto
  · rfl

/-- The places of an idiom are those of its bound variables. -/
theorem mem_binders_of_mem_places (hx : x ∈ n.places) : x ∈ n.binders := by
  unfold places at hx
  split at hx <;> simp_all [binders]

end Node

/-- The parts of a claim mention a bound variable of the node exactly if it occurs in its scope
elsewhere than at the places of the idiom. -/
theorem Idiom.mem_freeNames_iff {n : Node} {c : Claim} (h : Idiom n c) (k : String) :
    k ∈ c.freeNames ↔ n.places.count k < n.scope.count k := by
  rw [h.count_scope, ← List.count_pos_iff]
  omega

/-- Any other name occurs in the parts exactly if it is a free name of the node. -/
theorem Idiom.mem_freeNames_iff_of_notMem {n : Node} {c : Claim} (h : Idiom n c) {x : String}
    (hx : x ∉ n.binders) : x ∈ c.freeNames ↔ x ∈ n.freeNames := by
  have hplaces : n.places.count x = 0 :=
    List.count_eq_zero.mpr fun hmem => hx (Node.mem_binders_of_mem_places hmem)
  rw [h.mem_freeNames_iff, hplaces, List.count_pos_iff, Node.mem_scope_iff hx]

/-- The value that an element is compared with does not mention the bound variable. -/
theorem Idiom.notMem_of_contains {n : Node} {lo hi a m : Expr} {k : String}
    (h : Idiom n (.apply "contains" [lo, hi, a, m])) (hk : k ∈ n.binders) : k ∉ m.freeNames := by
  generalize hc : Claim.apply "contains" [lo, hi, a, m] = c at h
  cases h with
  | contains _ _ hm =>
    cases hc
    rw [Node.binders, List.mem_singleton] at hk
    exact hk ▸ hm
  | _ => simp at hc

/-! ## Claims of built-in triggers -/

/-- The names in the parts of a claim of a built-in trigger are the free names of the node, and
those of its bound variables that occur in their scope elsewhere than at the places of the idiom.
The value that an element is compared with mentions no bound variable. -/
theorem Trigger.mem_freeNames_of_claimOn {t : Trigger} {n : Node} {c : Claim}
    (ht : t ∈ Trigger.builtin) (h : t.claimOn n = some c) :
    (∀ x, x ∉ n.binders → (x ∈ c.freeNames ↔ x ∈ n.freeNames)) ∧
      (∀ k ∈ n.binders, k ∈ c.freeNames ↔ n.places.count k < n.scope.count k) ∧
      ∀ lo hi a m, c = .apply "contains" [lo, hi, a, m] → ∀ k ∈ n.binders, k ∉ m.freeNames := by
  have hidiom := Idiom.of_claimOn ht h
  refine ⟨fun x hx => hidiom.mem_freeNames_iff_of_notMem hx,
    fun k _ => hidiom.mem_freeNames_iff k, ?_⟩
  rintro lo hi a m rfl k hk
  exact hidiom.notMem_of_contains hk

/-- The sum `(SUM i : 0 ≤ i ∧ i < n : (SUM j : 0 ≤ j ∧ j ≤ i : m[i][j]))` of the lower triangle. -/
def triangleSum : IntExpr :=
  let i : IntExpr := .name "i"
  let j : IntExpr := .name "j"
  .fold .sum "i" (.and (.comp .le (.const 0) i) (.comp .lt i (.name "n")))
    (.fold .sum "j" (.and (.comp .le (.const 0) j) (.comp .le j i))
      (.var (.select (.select (.name "m") i) j)))

/-- The row of the triangle ends at `i`, which leaves its binder with that end; `j` stays. -/
theorem triangleSum_freeNames :
    ∃ c, Trigger.matrixSum.claimOn (.int triangleSum) = some c ∧
      Trigger.matrixSum ∈ Trigger.builtin ∧
      ("n" ∈ c.freeNames ↔ "n" ∈ triangleSum.freeNames) ∧
      "i" ∈ c.freeNames ∧ "j" ∉ c.freeNames := by
  have ht : Trigger.matrixSum ∈ Trigger.builtin := by simp [Trigger.builtin]
  obtain ⟨c, hc⟩ : ∃ c, Trigger.matrixSum.claimOn (.int triangleSum) = some c := ⟨_, rfl⟩
  obtain ⟨hother, hbound, -⟩ := Trigger.mem_freeNames_of_claimOn ht hc
  refine ⟨c, hc, ht, hother "n" (by decide), (hbound "i" (by decide)).mpr (by decide), fun hj => ?_⟩
  exact absurd ((hbound "j" (by decide)).mp hj) (by decide)

/-- The sum `(SUM k : 0 ≤ k ∧ k < n : a[k][k])` of a diagonal. -/
def diagonalSum : IntExpr :=
  let k : IntExpr := .name "k"
  .fold .sum "k" (.and (.comp .le (.const 0) k) (.comp .lt k (.name "n")))
    (.var (.select (.select (.name "a") k) k))

/-- The sum of a diagonal is claimed as that of the array `a[k]`, and the bound variable leaves its
binder with it. -/
theorem diagonalSum_escapes :
    Trigger.arraySum ∈ Trigger.builtin ∧
      (∃ c, Trigger.arraySum.claimOn (.int diagonalSum) = some c ∧
        ∃ e ∈ c.parts, ∃ k ∈ (Node.int diagonalSum).binders, k ∈ e.freeNames) ∧
      (diagonalSum.lower [.arraySum]).map Term.render = .ok "(sum 0 (- n 1) (select a k))" ∧
      "k" ∉ diagonalSum.freeNames := by
  refine ⟨by simp [Trigger.builtin], ?_, by cbv, by decide⟩
  exact ⟨_, rfl, .map (.select (.name "a") (.name "k")), by simp [Claim.parts], "k", by decide,
    by decide⟩

end GuardedCommand
