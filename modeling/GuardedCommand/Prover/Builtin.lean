import GuardedCommand.Names.Basic
import GuardedCommand.Prover.Shape
import GuardedCommand.Prover.Trigger

/-! # Built-in triggers

| formula | term |
|---|---|
| `(SUM k : lo ≤ k ≤ hi : a[k])` | `(sum lo hi a)` |
| `(PROD k : lo ≤ k ≤ hi : a[k])` | `(prod lo hi a)` |
| `(E k : lo ≤ k ≤ hi : a[k] = m)` | `(contains lo hi a m)` |
| `perm(a, b, n)` | `(perm a b n)` |
| `(SUM i : … : (SUM j : … : m[i][j]))` | `(msum ilo ihi jlo jhi m)` |
| `(SUM k : … : a[r][k] * b[k][c])` | `(rowcolprod lo hi r c a b)` |
| `(SUM k : … : a[i][k] * x[k])` | `(rowvecprod lo hi i a x)` |

The two sides of an equation and of a product may come in either order.
-/

namespace GuardedCommand

/-! ## Claims -/

/-- The array and its bounds in an aggregate of `a[k]`. -/
def claimArrayFold (head k : String) (c : Predicate) (e : IntExpr) : Option Claim := do
  let a ← e.indexedBy? k
  let b ← c.bounds? k
  some (.apply head [.int b.lo, .int b.hi, .map a])

/-- The array and the value of `a[k] = m` or `m = a[k]`. -/
def membership? (k : String) : Predicate → Option (Variable × IntExpr)
  | .comp .eq l r =>
    match l.indexedBy? k with
    | some a => some (a, r)
    | none => (r.indexedBy? k).map (·, l)
  | _ => none

/-- The claim on `(E k : lo ≤ k ≤ hi : a[k] = m)`, where `k` does not occur in `m`. -/
def claimContains : Predicate → Option Claim
  | .quant .some k c p => do
    let (a, m) ← membership? k p
    if m.freeNames.contains k then none
    else do
      let b ← c.bounds? k
      some (.apply "contains" [.int b.lo, .int b.hi, .map a, .int m])
  | _ => none

/-- The claim on `perm(a, b, n)`. -/
def claimPerm : Predicate → Option Claim
  | .perm a b n => some (.apply "perm" [.map a, .map b, .int n])
  | _ => none

/-- The claim on the sum of an array. -/
def claimArraySum : IntExpr → Option Claim
  | .fold .sum k c e => claimArrayFold "sum" k c e
  | _ => none

/-- The claim on the product of an array. -/
def claimArrayProd : IntExpr → Option Claim
  | .fold .prod k c e => claimArrayFold "prod" k c e
  | _ => none

/-- The claim on the sum of a matrix. -/
def claimMatrixSum : IntExpr → Option Claim
  | .fold .sum i c (.fold .sum j d e) => do
    let rows ← c.bounds? i
    let cols ← d.bounds? j
    let (m, row, col) ← e.cell?
    if row.isName i && col.isName j then
      some (.apply "msum" [.int rows.lo, .int rows.hi, .int cols.lo, .int cols.hi, .map m])
    else none
  | _ => none

/-- A row and a column in the product of two cells: the index `k` runs along the row of the one and
the column of the other. -/
structure RowColumn where
  /-- The row of the left matrix. -/
  row : IntExpr
  /-- The column of the right matrix. -/
  col : IntExpr
  /-- The left matrix. -/
  left : Variable
  /-- The right matrix. -/
  right : Variable

/-- The row and the column of `a[r][k] * b[k][c]` or of `b[k][c] * a[r][k]`. -/
def rowColumn? (k : String) (x y : IntExpr) : Option RowColumn := do
  let (a, r, c) ← x.cell?
  let (b, s, d) ← y.cell?
  if c.isName k && s.isName k then some ⟨r, d, a, b⟩
  else if r.isName k && d.isName k then some ⟨s, c, b, a⟩
  else none

/-- The claim on the product of a row and a column. -/
def claimRowColumn : IntExpr → Option Claim
  | .fold .sum k c (.binary .mult x y) => do
    let p ← rowColumn? k x y
    let b ← c.bounds? k
    some (.apply "rowcolprod" [.int b.lo, .int b.hi, .int p.row, .int p.col, .map p.left, .map p.right])
  | _ => none

/-- The row of the cell `a[i][k]` beside the element `v[j]`, where `j` is `k`. -/
def rowBeside? (k : String) (v : Variable) (j cell : IntExpr) :
    Option (IntExpr × Variable × Variable) := do
  let (a, i, l) ← cell.cell?
  if j.isName k && l.isName k then some (i, a, v) else none

/-- The row, the matrix and the vector of `a[i][k] * v[k]` or of `v[k] * a[i][k]`. -/
def rowVector? (k : String) (x y : IntExpr) : Option (IntExpr × Variable × Variable) :=
  match x.element? with
  | some (v, j) => rowBeside? k v j y
  | none => do
    let (v, j) ← y.element?
    rowBeside? k v j x

/-- The claim on the product of a row and a vector. -/
def claimRowVector : IntExpr → Option Claim
  | .fold .sum k c (.binary .mult x y) => do
    let (i, a, v) ← rowVector? k x y
    let b ← c.bounds? k
    some (.apply "rowvecprod" [.int b.lo, .int b.hi, .int i, .map a, .map v])
  | _ => none

/-! ## Sizes of the parts -/

/-- The parts of a claim on an aggregate of `a[k]` are smaller than the aggregate. -/
theorem size_claimArrayFold {head k : String} {c : Predicate} {e : IntExpr} {claim : Claim}
    (h : claimArrayFold head k c e = some claim) :
    Expr.sizeMax claim.parts < c.size + e.size + 1 := by
  simp only [claimArrayFold, Option.bind_eq_bind, Option.bind_eq_some_iff, Option.some.injEq] at h
  obtain ⟨a, ha, b, hb, rfl⟩ := h
  have ha := IntExpr.size_indexedBy? ha
  have hb := Predicate.size_bounds? hb
  simp only [Claim.parts, Expr.sizeMax, Expr.size]
  omega

/-- The parts of a claim on the sum of an array are smaller than the sum. -/
theorem size_claimArraySum {e : IntExpr} {claim : Claim} (h : claimArraySum e = some claim) :
    Expr.sizeMax claim.parts < e.size := by
  unfold claimArraySum at h
  split at h
  · exact size_claimArrayFold h
  · cases h

/-- The parts of a claim on the product of an array are smaller than the product. -/
theorem size_claimArrayProd {e : IntExpr} {claim : Claim} (h : claimArrayProd e = some claim) :
    Expr.sizeMax claim.parts < e.size := by
  unfold claimArrayProd at h
  split at h
  · exact size_claimArrayFold h
  · cases h

/-- The array and the value of `a[k] = m` are smaller than the equation. -/
theorem size_membership? {k : String} {p : Predicate} {a : Variable} {m : IntExpr}
    (h : membership? k p = some (a, m)) : a.size + 1 < p.size ∧ m.size < p.size := by
  unfold membership? at h
  split at h
  · rename_i l r
    have := l.size_pos
    have := r.size_pos
    simp only [Predicate.size]
    split at h
    · rename_i hl
      have hl := IntExpr.size_indexedBy? hl
      simp only [Option.some.injEq, Prod.mk.injEq] at h
      rw [← h.1, ← h.2]
      omega
    · simp only [Option.map_eq_some_iff, Prod.mk.injEq] at h
      obtain ⟨b, hr, rfl, rfl⟩ := h
      have hr := IntExpr.size_indexedBy? hr
      omega
  · cases h

/-- The parts of a claim on the existence of an element are smaller than the predicate. -/
theorem size_claimContains {p : Predicate} {claim : Claim} (h : claimContains p = some claim) :
    Expr.sizeMax claim.parts < p.size := by
  unfold claimContains at h
  split at h
  · simp only [Option.bind_eq_bind, Option.bind_eq_some_iff] at h
    obtain ⟨⟨a, m⟩, hm, h⟩ := h
    split at h
    · cases h
    · simp only [Option.bind_eq_some_iff, Option.some.injEq] at h
      obtain ⟨b, hb, rfl⟩ := h
      have hm := size_membership? hm
      have hb := Predicate.size_bounds? hb
      simp only [Claim.parts, Expr.sizeMax, Expr.size, Predicate.size]
      omega
  · cases h

/-- The parts of a claim on a permutation are smaller than the predicate. -/
theorem size_claimPerm {p : Predicate} {claim : Claim} (h : claimPerm p = some claim) :
    Expr.sizeMax claim.parts < p.size := by
  unfold claimPerm at h
  split at h
  · rename_i a b n
    simp only [Option.some.injEq] at h
    have := a.size_pos
    have := b.size_pos
    have := n.size_pos
    rw [← h]
    simp only [Claim.parts, Expr.sizeMax, Expr.size, Predicate.size]
    omega
  · cases h

/-- The parts of a claim on the sum of a matrix are smaller than the sum. -/
theorem size_claimMatrixSum {e : IntExpr} {claim : Claim} (h : claimMatrixSum e = some claim) :
    Expr.sizeMax claim.parts < e.size := by
  unfold claimMatrixSum at h
  split at h
  · simp only [Option.bind_eq_bind, Option.bind_eq_some_iff] at h
    obtain ⟨rows, hrows, cols, hcols, ⟨m, row, col⟩, hm, h⟩ := h
    split at h
    · simp only [Option.some.injEq] at h
      have hrows := Predicate.size_bounds? hrows
      have hcols := Predicate.size_bounds? hcols
      have hm := IntExpr.size_cell? hm
      rw [← h]
      simp only [Claim.parts, Expr.sizeMax, Expr.size, IntExpr.size]
      omega
    · cases h
  · cases h

/-- The parts of a product of a row and a column are smaller than its factors. -/
theorem size_rowColumn? {k : String} {x y : IntExpr} {p : RowColumn}
    (h : rowColumn? k x y = some p) :
    p.row.size < x.size + y.size ∧ p.col.size < x.size + y.size ∧
      p.left.size < x.size + y.size ∧ p.right.size < x.size + y.size := by
  simp only [rowColumn?, Option.bind_eq_bind, Option.bind_eq_some_iff] at h
  obtain ⟨⟨a, r, c⟩, hx, ⟨b, s, d⟩, hy, h⟩ := h
  have hx := IntExpr.size_cell? hx
  have hy := IntExpr.size_cell? hy
  split at h
  · simp only [Option.some.injEq] at h
    rw [← h]
    dsimp only
    omega
  · split at h <;> simp only [Option.some.injEq, reduceCtorEq] at h
    rw [← h]
    dsimp only
    omega

/-- The parts of a claim on the product of a row and a column are smaller than the sum. -/
theorem size_claimRowColumn {e : IntExpr} {claim : Claim} (h : claimRowColumn e = some claim) :
    Expr.sizeMax claim.parts < e.size := by
  unfold claimRowColumn at h
  split at h
  · simp only [Option.bind_eq_bind, Option.bind_eq_some_iff, Option.some.injEq] at h
    obtain ⟨p, hp, b, hb, rfl⟩ := h
    have hp := size_rowColumn? hp
    have hb := Predicate.size_bounds? hb
    simp only [Claim.parts, Expr.sizeMax, Expr.size, IntExpr.size]
    omega
  · cases h

/-- The row and the matrix of a cell are smaller than the cell. -/
theorem size_rowBeside? {k : String} {j cell i : IntExpr} {u a v : Variable}
    (h : rowBeside? k u j cell = some (i, a, v)) :
    i.size < cell.size ∧ a.size < cell.size ∧ v = u := by
  simp only [rowBeside?, Option.bind_eq_bind, Option.bind_eq_some_iff] at h
  obtain ⟨⟨b, l, m⟩, hb, h⟩ := h
  have hb := IntExpr.size_cell? hb
  split at h <;> simp only [Option.some.injEq, Prod.mk.injEq, reduceCtorEq] at h
  obtain ⟨rfl, rfl, rfl⟩ := h
  exact ⟨by omega, by omega, rfl⟩

/-- The parts of a product of a row and a vector are smaller than its factors. -/
theorem size_rowVector? {k : String} {x y i : IntExpr} {a v : Variable}
    (h : rowVector? k x y = some (i, a, v)) :
    i.size < x.size + y.size ∧ a.size < x.size + y.size ∧ v.size < x.size + y.size := by
  unfold rowVector? at h
  split at h
  · rename_i u j hx
    have hx := IntExpr.size_element? hx
    obtain ⟨hi, ha, rfl⟩ := size_rowBeside? h
    omega
  · simp only [Option.bind_eq_bind, Option.bind_eq_some_iff] at h
    obtain ⟨⟨u, j⟩, hy, h⟩ := h
    have hy := IntExpr.size_element? hy
    obtain ⟨hi, ha, rfl⟩ := size_rowBeside? h
    omega

/-- The parts of a claim on the product of a row and a vector are smaller than the sum. -/
theorem size_claimRowVector {e : IntExpr} {claim : Claim} (h : claimRowVector e = some claim) :
    Expr.sizeMax claim.parts < e.size := by
  unfold claimRowVector at h
  split at h
  · simp only [Option.bind_eq_bind, Option.bind_eq_some_iff, Option.some.injEq] at h
    obtain ⟨⟨i, a, v⟩, hp, b, hb, rfl⟩ := h
    have hp := size_rowVector? hp
    have hb := Predicate.size_bounds? hb
    simp only [Claim.parts, Expr.sizeMax, Expr.size, IntExpr.size]
    omega
  · cases h

/-! ## The triggers -/

namespace Trigger

/-- The sum of an array. -/
def arraySum : Trigger where
  name := "ARRAY_SUM"
  onInt := claimArraySum
  onInt_size := size_claimArraySum

/-- The product of an array. -/
def arrayProd : Trigger where
  name := "ARRAY_PROD"
  onInt := claimArrayProd
  onInt_size := size_claimArrayProd

/-- The existence of an element. -/
def arrayContains : Trigger where
  name := "ARRAY_CONTAINS"
  onPredicate := claimContains
  onPredicate_size := size_claimContains

/-- The permutation of an array. -/
def arrayPerm : Trigger where
  name := "ARRAY_PERM"
  onPredicate := claimPerm
  onPredicate_size := size_claimPerm

/-- The sum of a matrix. -/
def matrixSum : Trigger where
  name := "MATRIX_SUM"
  onInt := claimMatrixSum
  onInt_size := size_claimMatrixSum

/-- The product of a row and a column. -/
def rowColumn : Trigger where
  name := "ROW_ON_COL_DOTPROD"
  onInt := claimRowColumn
  onInt_size := size_claimRowColumn

/-- The product of a row and a vector. -/
def rowVector : Trigger where
  name := "ROW_ON_VEC_DOTPROD"
  onInt := claimRowVector
  onInt_size := size_claimRowVector

/-- The built-in triggers. -/
def builtin : List Trigger :=
  [arraySum, arrayProd, arrayContains, arrayPerm, matrixSum, rowColumn, rowVector]

end Trigger

end GuardedCommand
