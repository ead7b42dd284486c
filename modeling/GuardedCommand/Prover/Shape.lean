import GuardedCommand.Syntax.Formula

/-! # Shapes of quantified formulas

The patterns that the built-in triggers look for.

* `Predicate.bounds?`: a condition as a range `lo ≤ k ≤ hi`. Strict comparisons become inclusive by
  adding or subtracting one.
* `IntExpr.indexedBy?`: `a[k]`.
* `IntExpr.element?`: `x[j]`, where `x` is not an element itself.
* `IntExpr.cell?`: `m[row][col]`.
-/

namespace GuardedCommand

/-- The range `lo ≤ k ≤ hi` of a bound variable. -/
structure Bounds where
  /-- The least value. -/
  lo : IntExpr
  /-- The greatest value. -/
  hi : IntExpr

/-- One end of a range. -/
inductive RangeEnd where
  /-- The bound variable is at least this. -/
  | lower (e : IntExpr)
  /-- The bound variable is at most this. -/
  | upper (e : IntExpr)

namespace RangeEnd

/-- The end that `k op e` gives. -/
def ofRight? : CompOp → IntExpr → Option RangeEnd
  | .lt, e => some (.upper (e.minus (.const 1)))
  | .le, e => some (.upper e)
  | .gt, e => some (.lower (e.plus (.const 1)))
  | .ge, e => some (.lower e)
  | .eq, _ | .ne, _ => none

/-- The end that `e op k` gives. -/
def ofLeft? : CompOp → IntExpr → Option RangeEnd
  | .lt, e => some (.lower (e.plus (.const 1)))
  | .le, e => some (.lower e)
  | .gt, e => some (.upper (e.minus (.const 1)))
  | .ge, e => some (.upper e)
  | .eq, _ | .ne, _ => none

/-- The expression at this end. -/
def value : RangeEnd → IntExpr
  | .lower e | .upper e => e

end RangeEnd

namespace Predicate

/-- A comparison with `k` on exactly one side as an end of a range of `k`. -/
def rangeEnd? (k : String) : Predicate → Option RangeEnd
  | .comp op l r =>
    match l.isName k, r.isName k with
    | true, false => RangeEnd.ofRight? op r
    | false, true => RangeEnd.ofLeft? op l
    | _, _ => none
  | _ => none

/-- A conjunction of two comparisons as a range of `k`; they give different ends, in any order. -/
def bounds? (k : String) : Predicate → Option Bounds
  | .binary .and l r => do
    match ← l.rangeEnd? k, ← r.rangeEnd? k with
    | .lower lo, .upper hi => some ⟨lo, hi⟩
    | .upper hi, .lower lo => some ⟨lo, hi⟩
    | _, _ => none
  | _ => none

end Predicate

namespace IntExpr

/-- The array `a` of `a[k]`. -/
def indexedBy? (k : String) : IntExpr → Option Variable
  | .var (.select b i) => if i.isName k then some b else none
  | _ => none

/-- The array and the index of `x[j]`, where `x` is not an element itself. -/
def element? : IntExpr → Option (Variable × IntExpr)
  | .var (.select (.select ..) _) => none
  | .var (.select b i) => some (b, i)
  | _ => none

/-- The matrix, the row and the column of `m[row][col]`. -/
def cell? : IntExpr → Option (Variable × IntExpr × IntExpr)
  | .var (.select (.select m row) col) => some (m, row, col)
  | _ => none

end IntExpr

/-! ## Sizes

The parts of a shape are smaller than the node. -/

/-- The end that a comparison gives is at most the number before or after its other side. -/
theorem RangeEnd.size_ofRight? {op : CompOp} {e : IntExpr} {r : RangeEnd}
    (h : RangeEnd.ofRight? op e = some r) : r.value.size ≤ e.size + 2 := by
  cases op <;> simp only [RangeEnd.ofRight?, Option.some.injEq, reduceCtorEq] at h <;> subst h <;>
    simp [RangeEnd.value, IntExpr.minus, IntExpr.plus, IntExpr.size]

/-- The end that a comparison gives is at most the number before or after its other side. -/
theorem RangeEnd.size_ofLeft? {op : CompOp} {e : IntExpr} {r : RangeEnd}
    (h : RangeEnd.ofLeft? op e = some r) : r.value.size ≤ e.size + 2 := by
  cases op <;> simp only [RangeEnd.ofLeft?, Option.some.injEq, reduceCtorEq] at h <;> subst h <;>
    simp [RangeEnd.value, IntExpr.minus, IntExpr.plus, IntExpr.size]

/-- An end of a range is at most one node larger than its comparison. -/
theorem Predicate.size_rangeEnd? {k : String} {p : Predicate} {r : RangeEnd}
    (h : p.rangeEnd? k = some r) : r.value.size ≤ p.size := by
  unfold Predicate.rangeEnd? at h
  split at h
  · rename_i op left right
    have hl := left.size_pos
    have hr := right.size_pos
    simp only [Predicate.size]
    split at h
    · have := RangeEnd.size_ofRight? h
      omega
    · have := RangeEnd.size_ofLeft? h
      omega
    · cases h
  · cases h

/-- Both ends of a range are smaller than its condition. -/
theorem Predicate.size_bounds? {k : String} {p : Predicate} {b : Bounds} (h : p.bounds? k = some b) :
    b.lo.size + 1 < p.size ∧ b.hi.size + 1 < p.size := by
  unfold Predicate.bounds? at h
  split at h
  · rename_i left right
    simp only [Option.bind_eq_bind, Option.bind_eq_some_iff] at h
    obtain ⟨l, hl, r, hr, h⟩ := h
    have hl := size_rangeEnd? hl
    have hr := size_rangeEnd? hr
    have hl0 := left.size_pos
    have hr0 := right.size_pos
    simp only [Predicate.size]
    split at h <;> simp only [Option.some.injEq, reduceCtorEq] at h
    · subst h
      simp only [RangeEnd.value] at hl hr ⊢
      omega
    · subst h
      simp only [RangeEnd.value] at hl hr ⊢
      omega
  · cases h

/-- The array of an element is smaller than the element. -/
theorem IntExpr.size_indexedBy? {k : String} {e : IntExpr} {a : Variable}
    (h : e.indexedBy? k = some a) : a.size + 2 < e.size := by
  unfold IntExpr.indexedBy? at h
  split at h
  · rename_i b i
    split at h <;> simp only [Option.some.injEq, reduceCtorEq] at h
    subst h
    have := i.size_pos
    simp only [IntExpr.size, Variable.size]; omega
  · cases h

/-- The array and the index of an element are smaller than the element. -/
theorem IntExpr.size_element? {e i : IntExpr} {a : Variable} (h : e.element? = some (a, i)) :
    a.size + 2 < e.size ∧ i.size + 2 < e.size := by
  unfold IntExpr.element? at h
  split at h
  · cases h
  · simp only [Option.some.injEq, Prod.mk.injEq] at h
    rw [← h.1, ← h.2]
    rename_i b j _
    have := b.size_pos
    have := j.size_pos
    simp only [IntExpr.size, Variable.size]; omega
  · cases h

/-- The matrix and the two indices of a cell are smaller than the cell. -/
theorem IntExpr.size_cell? {e row col : IntExpr} {m : Variable}
    (h : e.cell? = some (m, row, col)) :
    m.size + 2 < e.size ∧ row.size + 2 < e.size ∧ col.size + 2 < e.size := by
  unfold IntExpr.cell? at h
  split at h
  · simp only [Option.some.injEq, Prod.mk.injEq] at h
    rw [← h.1, ← h.2.1, ← h.2.2]
    rename_i b i j
    have := b.size_pos
    have := i.size_pos
    have := j.size_pos
    simp only [IntExpr.size, Variable.size]; omega
  · cases h

end GuardedCommand
