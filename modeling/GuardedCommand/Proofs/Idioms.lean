import GuardedCommand.Proofs.LoweringSteps
import GuardedCommand.Prover.Builtin

/-! # Idioms

The formulas that the built-in triggers are made for, said without the functions that look for them.

* `Ends`, `Range`: the comparisons that bound a variable, and the conditions that give its range.
* `Idiom`: the idioms, each with the claim on it.
* `Idiom.of_claimOn`: what a built-in trigger claims is an idiom.
* `Idiom.exists_claimOn`: an idiom is claimed, if its bound variables do not occur in the parts.
-/

namespace GuardedCommand

/-! ## Shapes of elements -/

namespace IntExpr

/-- Only the name `k` is recognised as such. -/
theorem isName_iff {e : IntExpr} {k : String} : e.isName k = true ↔ e = .name k := by
  cases e with
  | var v => cases v <;> simp [isName, asName, Variable.asName, name]
  | _ => simp [isName, asName, name]

/-- A name is recognised as itself. -/
@[simp] theorem isName_name (k : String) : (IntExpr.name k).isName k = true := isName_iff.mpr rfl

/-- An expression that does not mention `k` is not the name `k`. -/
theorem isName_eq_false {e : IntExpr} {k : String} (h : k ∉ e.freeNames) : e.isName k = false := by
  rw [← Bool.not_eq_true, isName_iff]
  rintro rfl
  simp at h

/-- Exactly the elements `a[k]` are indexed by `k`. -/
theorem indexedBy?_eq_some_iff {e : IntExpr} {k : String} {a : Variable} :
    e.indexedBy? k = some a ↔ e = .var (.select a (.name k)) := by
  unfold indexedBy?
  split
  · rename_i b i
    by_cases hi : i.isName k = true
    · obtain rfl := isName_iff.mp hi
      simp
    · have hne : i ≠ .name k := fun h => hi (isName_iff.mpr h)
      simp [hi, hne]
  · rename_i hne
    simp only [reduceCtorEq, false_iff]
    exact hne a (.name k)

/-- An expression that does not mention `k` is not indexed by it. -/
theorem indexedBy?_eq_none {e : IntExpr} {k : String} (h : k ∉ e.freeNames) :
    e.indexedBy? k = none := by
  rw [Option.eq_none_iff_forall_ne_some]
  intro a ha
  obtain rfl := indexedBy?_eq_some_iff.mp ha
  simp at h

/-- Exactly the elements of what is not an element itself are recognised as elements. -/
theorem element?_eq_some_iff {e i : IntExpr} {a : Variable} :
    e.element? = some (a, i) ↔ e = .var (.select a i) ∧ ∀ b j, a ≠ .select b j := by
  unfold element?
  split
  · rename_i b j l
    simp only [reduceCtorEq, false_iff, not_and]
    rintro h hne
    cases h
    exact hne b j rfl
  · rename_i b j hne
    simp only [Option.some.injEq, Prod.mk.injEq, IntExpr.var.injEq, Variable.select.injEq]
    constructor
    · rintro ⟨rfl, rfl⟩
      exact ⟨⟨rfl, rfl⟩, hne⟩
    · exact fun h => h.1
  · rename_i hne
    simp only [reduceCtorEq, false_iff, not_and]
    exact fun h => absurd h (hne a i)

/-- Exactly the elements `m[row][col]` of elements are recognised as cells. -/
theorem cell?_eq_some_iff {e row col : IntExpr} {m : Variable} :
    e.cell? = some (m, row, col) ↔ e = .var (.select (.select m row) col) := by
  unfold cell?
  split
  · simp [and_assoc]
  · rename_i hne
    simp only [reduceCtorEq, false_iff]
    exact hne m row col

end IntExpr

/-! ## Ranges -/

/-- The eight comparisons of `k` with another expression, each with the end that it gives to the
range of `k`. -/
inductive Ends (k : String) : Predicate → RangeEnd → Prop
  /-- `k < e` -/
  | lt {e : IntExpr} (he : e ≠ .name k) :
    Ends k (.comp .lt (.name k) e) (.upper (e.minus (.const 1)))
  /-- `k ≤ e` -/
  | le {e : IntExpr} (he : e ≠ .name k) : Ends k (.comp .le (.name k) e) (.upper e)
  /-- `k > e` -/
  | gt {e : IntExpr} (he : e ≠ .name k) :
    Ends k (.comp .gt (.name k) e) (.lower (e.plus (.const 1)))
  /-- `k ≥ e` -/
  | ge {e : IntExpr} (he : e ≠ .name k) : Ends k (.comp .ge (.name k) e) (.lower e)
  /-- `e < k` -/
  | ltName {e : IntExpr} (he : e ≠ .name k) :
    Ends k (.comp .lt e (.name k)) (.lower (e.plus (.const 1)))
  /-- `e ≤ k` -/
  | leName {e : IntExpr} (he : e ≠ .name k) : Ends k (.comp .le e (.name k)) (.lower e)
  /-- `e > k` -/
  | gtName {e : IntExpr} (he : e ≠ .name k) :
    Ends k (.comp .gt e (.name k)) (.upper (e.minus (.const 1)))
  /-- `e ≥ k` -/
  | geName {e : IntExpr} (he : e ≠ .name k) : Ends k (.comp .ge e (.name k)) (.upper e)

/-- The conditions that give `k` a range: a conjunction of one comparison for each end, in either
order. -/
inductive Range (k : String) : Predicate → Bounds → Prop
  /-- The lower end comes first. -/
  | lowerFirst {p q : Predicate} {lo hi : IntExpr} (hp : Ends k p (.lower lo))
    (hq : Ends k q (.upper hi)) : Range k (.binary .and p q) ⟨lo, hi⟩
  /-- The upper end comes first. -/
  | upperFirst {p q : Predicate} {lo hi : IntExpr} (hp : Ends k p (.upper hi))
    (hq : Ends k q (.lower lo)) : Range k (.binary .and p q) ⟨lo, hi⟩

namespace Predicate

variable {k : String}

/-- Exactly the eight comparisons give an end of a range. -/
theorem rangeEnd?_eq_some_iff {p : Predicate} {r : RangeEnd} :
    p.rangeEnd? k = some r ↔ Ends k p r := by
  constructor
  · intro h
    unfold rangeEnd? at h
    split at h
    · rename_i op left right
      split at h
      · -- `k` on the left
        rename_i hl hr
        obtain rfl := IntExpr.isName_iff.mp hl
        have hne : right ≠ .name k := fun h => by simp [h] at hr
        cases op <;> simp only [RangeEnd.ofRight?, Option.some.injEq, reduceCtorEq] at h <;> subst h
        · exact .lt hne
        · exact .gt hne
        · exact .le hne
        · exact .ge hne
      · -- `k` on the right
        rename_i hl hr
        obtain rfl := IntExpr.isName_iff.mp hr
        have hne : left ≠ .name k := fun h => by simp [h] at hl
        cases op <;> simp only [RangeEnd.ofLeft?, Option.some.injEq, reduceCtorEq] at h <;> subst h
        · exact .ltName hne
        · exact .gtName hne
        · exact .leName hne
        · exact .geName hne
      · cases h
    · cases h
  · intro h
    cases h with
    | _ he =>
      have hname : IntExpr.isName _ k = false :=
        Bool.eq_false_iff.mpr fun h => he (IntExpr.isName_iff.mp h)
      simp [rangeEnd?, hname, RangeEnd.ofRight?, RangeEnd.ofLeft?]

/-- Exactly the conjunctions of a lower and an upper end give a range. -/
theorem bounds?_eq_some_iff {c : Predicate} {b : Bounds} : c.bounds? k = some b ↔ Range k c b := by
  constructor
  · intro h
    unfold bounds? at h
    split at h
    · simp only [Option.bind_eq_bind, Option.bind_eq_some_iff] at h
      obtain ⟨l, hl, r, hr, h⟩ := h
      rw [rangeEnd?_eq_some_iff] at hl hr
      split at h <;> simp only [Option.some.injEq, reduceCtorEq] at h <;> subst h
      · exact .lowerFirst hl hr
      · exact .upperFirst hl hr
    · cases h
  · intro h
    cases h with
    | lowerFirst hp hq | upperFirst hp hq =>
      simp [bounds?, rangeEnd?_eq_some_iff.mpr hp, rangeEnd?_eq_some_iff.mpr hq]

end Predicate

/-! ## Idioms -/

/-- The equations between `x` and `y`. -/
inductive Equation (x y : IntExpr) : Predicate → Prop
  /-- `x = y` -/
  | inOrder : Equation x y (.comp .eq x y)
  /-- `y = x` -/
  | swapped : Equation x y (.comp .eq y x)

/-- The products of `x` and `y`. -/
inductive Product (x y : IntExpr) : IntExpr → Prop
  /-- `x * y` -/
  | inOrder : Product x y (.binary .mult x y)
  /-- `y * x` -/
  | swapped : Product x y (.binary .mult y x)

/-- A product is a multiplication, whichever factor comes first. -/
theorem Product.exists_mult {x y e : IntExpr} (h : Product x y e) :
    ∃ l r, e = .binary .mult l r := by
  cases h with
  | inOrder => exact ⟨x, y, rfl⟩
  | swapped => exact ⟨y, x, rfl⟩

/-- The idioms, each with the claim on it. -/
inductive Idiom : Node → Claim → Prop
  /-- `(SUM k : lo ≤ k ≤ hi : a[k])` -/
  | sum {k : String} {c : Predicate} {b : Bounds} {a : Variable} (hc : Range k c b) :
    Idiom (.int (.fold .sum k c (.var (.select a (.name k)))))
      (.apply "sum" [.int b.lo, .int b.hi, .map a])
  /-- `(PROD k : lo ≤ k ≤ hi : a[k])` -/
  | prod {k : String} {c : Predicate} {b : Bounds} {a : Variable} (hc : Range k c b) :
    Idiom (.int (.fold .prod k c (.var (.select a (.name k)))))
      (.apply "prod" [.int b.lo, .int b.hi, .map a])
  /-- `(E k : lo ≤ k ≤ hi : a[k] = m)`, where `k` does not occur in `m` -/
  | contains {k : String} {c p : Predicate} {b : Bounds} {a : Variable} {m : IntExpr}
    (hc : Range k c b) (hp : Equation (.var (.select a (.name k))) m p) (hm : k ∉ m.freeNames) :
    Idiom (.predicate (.quant .some k c p))
      (.apply "contains" [.int b.lo, .int b.hi, .map a, .int m])
  /-- `perm(a, b, n)` -/
  | perm {a b : Variable} {n : IntExpr} :
    Idiom (.predicate (.perm a b n)) (.apply "perm" [.map a, .map b, .int n])
  /-- `(SUM i : ilo ≤ i ≤ ihi : (SUM j : jlo ≤ j ≤ jhi : m[i][j]))` -/
  | matrix {i j : String} {c d : Predicate} {rows cols : Bounds} {m : Variable}
    (hc : Range i c rows) (hd : Range j d cols) :
    Idiom (.int (.fold .sum i c (.fold .sum j d (.var (.select (.select m (.name i)) (.name j))))))
      (.apply "msum" [.int rows.lo, .int rows.hi, .int cols.lo, .int cols.hi, .map m])
  /-- `(SUM k : lo ≤ k ≤ hi : l[row][k] * r[k][col])` -/
  | rowColumn {k : String} {c : Predicate} {b : Bounds} {row col e : IntExpr} {l r : Variable}
    (hc : Range k c b)
    (he : Product (.var (.select (.select l row) (.name k)))
      (.var (.select (.select r (.name k)) col)) e) :
    Idiom (.int (.fold .sum k c e))
      (.apply "rowcolprod" [.int b.lo, .int b.hi, .int row, .int col, .map l, .map r])
  /-- `(SUM k : lo ≤ k ≤ hi : a[row][k] * v[k])`, where `v` is not an element itself -/
  | rowVector {k : String} {c : Predicate} {b : Bounds} {row e : IntExpr} {a v : Variable}
    (hc : Range k c b) (hv : ∀ u i, v ≠ .select u i)
    (he : Product (.var (.select (.select a row) (.name k))) (.var (.select v (.name k))) e) :
    Idiom (.int (.fold .sum k c e))
      (.apply "rowvecprod" [.int b.lo, .int b.hi, .int row, .map a, .map v])

/-! ## Claims are on idioms -/

/-- The bound variables of the binders that a claim on a node takes away. -/
def Node.binders : Node → List String
  | .int (.fold .sum i _ (.fold .sum j _ _)) => [i, j]
  | .int (.fold _ k _ _) => [k]
  | .predicate (.quant _ k _ _) => [k]
  | _ => []

/-- The sum of a product has one bound variable. -/
theorem Product.binders_sum {k : String} {c : Predicate} {x y e : IntExpr} (h : Product x y e) :
    (Node.int (.fold .sum k c e)).binders = [k] := by
  cases h with
  | inOrder | swapped => rfl

/-- The names that occur free in the parts of a claim. -/
def Claim.freeNames (c : Claim) : List String := c.parts.flatMap Expr.freeNames

/-- A claim without parts mentions no names. -/
@[simp] theorem Claim.freeNames_nil (head : String) : (Claim.apply head []).freeNames = [] := rfl

/-- A claim mentions the names of its first part, an integer expression, and those of the others. -/
@[simp] theorem Claim.freeNames_int (head : String) (e : IntExpr) (es : List Expr) :
    (Claim.apply head (.int e :: es)).freeNames =
      e.freeNames ++ (Claim.apply head es).freeNames := rfl

/-- A claim mentions the names of its first part, a variable, and those of the others. -/
@[simp] theorem Claim.freeNames_map (head : String) (v : Variable) (es : List Expr) :
    (Claim.apply head (.map v :: es)).freeNames =
      v.freeNames ++ (Claim.apply head es).freeNames := rfl

namespace Idiom

/-- Exactly the aggregates of `a[k]` over a range of `k` are claimed. -/
theorem claimArrayFold_eq_some_iff {head k : String} {c : Predicate} {e : IntExpr} {claim : Claim} :
    claimArrayFold head k c e = some claim ↔
      ∃ a b, e = .var (.select a (.name k)) ∧ Range k c b ∧
        claim = .apply head [.int b.lo, .int b.hi, .map a] := by
  simp only [claimArrayFold, Option.bind_eq_bind, Option.bind_eq_some_iff, Option.some.injEq,
    IntExpr.indexedBy?_eq_some_iff, Predicate.bounds?_eq_some_iff, exists_and_left,
    eq_comm (b := claim)]

/-- What is claimed as the sum of an array is the idiom. -/
theorem of_claimArraySum {e : IntExpr} {c : Claim} (h : claimArraySum e = some c) :
    Idiom (.int e) c := by
  unfold claimArraySum at h
  split at h
  · obtain ⟨a, b, rfl, hb, rfl⟩ := claimArrayFold_eq_some_iff.mp h
    exact .sum hb
  · cases h

/-- What is claimed as the product of an array is the idiom. -/
theorem of_claimArrayProd {e : IntExpr} {c : Claim} (h : claimArrayProd e = some c) :
    Idiom (.int e) c := by
  unfold claimArrayProd at h
  split at h
  · obtain ⟨a, b, rfl, hb, rfl⟩ := claimArrayFold_eq_some_iff.mp h
    exact .prod hb
  · cases h

/-- An equation with `a[k]` on one of its sides. -/
theorem equation_of_membership? {k : String} {p : Predicate} {a : Variable} {m : IntExpr}
    (h : membership? k p = some (a, m)) : Equation (.var (.select a (.name k))) m p := by
  unfold membership? at h
  split at h
  · split at h
    · rename_i hl
      obtain ⟨rfl, rfl⟩ := Prod.mk.inj (Option.some.inj h)
      obtain rfl := IntExpr.indexedBy?_eq_some_iff.mp hl
      exact .inOrder
    · simp only [Option.map_eq_some_iff, Prod.mk.injEq] at h
      obtain ⟨_, hr, rfl, rfl⟩ := h
      obtain rfl := IntExpr.indexedBy?_eq_some_iff.mp hr
      exact .swapped
  · cases h

/-- What is claimed as the existence of an element is the idiom. -/
theorem of_claimContains {p : Predicate} {c : Claim} (h : claimContains p = some c) :
    Idiom (.predicate p) c := by
  unfold claimContains at h
  split at h
  · simp only [Option.bind_eq_bind, Option.bind_eq_some_iff] at h
    obtain ⟨⟨a, m⟩, hm, h⟩ := h
    split at h
    · cases h
    · rename_i hk
      simp only [Option.bind_eq_some_iff, Option.some.injEq] at h
      obtain ⟨b, hb, rfl⟩ := h
      exact .contains (Predicate.bounds?_eq_some_iff.mp hb) (equation_of_membership? hm)
        (by simpa using hk)
  · cases h

/-- What is claimed as a permutation is the idiom. -/
theorem of_claimPerm {p : Predicate} {c : Claim} (h : claimPerm p = some c) :
    Idiom (.predicate p) c := by
  unfold claimPerm at h
  split at h
  · cases h
    exact .perm
  · cases h

/-- What is claimed as the sum of a matrix is the idiom. -/
theorem of_claimMatrixSum {e : IntExpr} {c : Claim} (h : claimMatrixSum e = some c) :
    Idiom (.int e) c := by
  unfold claimMatrixSum at h
  split at h
  · simp only [Option.bind_eq_bind, Option.bind_eq_some_iff] at h
    obtain ⟨rows, hrows, cols, hcols, ⟨m, row, col⟩, hm, h⟩ := h
    obtain rfl := IntExpr.cell?_eq_some_iff.mp hm
    split at h
    · rename_i hname
      obtain ⟨hrow, hcol⟩ := Bool.and_eq_true_iff.mp hname
      obtain rfl := IntExpr.isName_iff.mp hrow
      obtain rfl := IntExpr.isName_iff.mp hcol
      cases h
      exact .matrix (Predicate.bounds?_eq_some_iff.mp hrows)
        (Predicate.bounds?_eq_some_iff.mp hcols)
    · cases h
  · cases h

/-- A product of two cells along `k`. -/
theorem product_of_rowColumn? {k : String} {x y : IntExpr} {p : RowColumn}
    (h : rowColumn? k x y = some p) :
    Product (.var (.select (.select p.left p.row) (.name k)))
      (.var (.select (.select p.right (.name k)) p.col)) (.binary .mult x y) := by
  simp only [rowColumn?, Option.bind_eq_bind, Option.bind_eq_some_iff] at h
  obtain ⟨⟨a, r, c⟩, hx, ⟨b, s, d⟩, hy, h⟩ := h
  obtain rfl := IntExpr.cell?_eq_some_iff.mp hx
  obtain rfl := IntExpr.cell?_eq_some_iff.mp hy
  split at h
  · rename_i hname
    simp only [Bool.and_eq_true, IntExpr.isName_iff] at hname
    obtain ⟨rfl, rfl⟩ := hname
    cases h
    exact .inOrder
  · split at h
    · rename_i hname
      simp only [Bool.and_eq_true, IntExpr.isName_iff] at hname
      obtain ⟨rfl, rfl⟩ := hname
      cases h
      exact .swapped
    · cases h

/-- What is claimed as the product of a row and a column is the idiom. -/
theorem of_claimRowColumn {e : IntExpr} {c : Claim} (h : claimRowColumn e = some c) :
    Idiom (.int e) c := by
  unfold claimRowColumn at h
  split at h
  · simp only [Option.bind_eq_bind, Option.bind_eq_some_iff, Option.some.injEq] at h
    obtain ⟨p, hp, b, hb, rfl⟩ := h
    exact .rowColumn (Predicate.bounds?_eq_some_iff.mp hb) (product_of_rowColumn? hp)
  · cases h

/-- The factor beside an element of the vector is the cell of a row, and both run along `k`. -/
theorem cell_of_rowBeside? {k : String} {j cell i : IntExpr} {u a v : Variable}
    (h : rowBeside? k u j cell = some (i, a, v)) :
    v = u ∧ j = .name k ∧ cell = .var (.select (.select a i) (.name k)) := by
  simp only [rowBeside?, Option.bind_eq_bind, Option.bind_eq_some_iff] at h
  obtain ⟨⟨b, l, m⟩, hb, h⟩ := h
  split at h
  · rename_i hname
    simp only [Bool.and_eq_true, IntExpr.isName_iff] at hname
    obtain ⟨rfl, rfl⟩ := hname
    cases h
    exact ⟨rfl, rfl, IntExpr.cell?_eq_some_iff.mp hb⟩
  · cases h

/-- A product of a cell and an element along `k`. -/
theorem product_of_rowVector? {k : String} {x y i : IntExpr} {a v : Variable}
    (h : rowVector? k x y = some (i, a, v)) :
    (∀ u j, v ≠ .select u j) ∧
      Product (.var (.select (.select a i) (.name k))) (.var (.select v (.name k)))
        (.binary .mult x y) := by
  unfold rowVector? at h
  split at h
  · rename_i u j hx
    obtain ⟨rfl, hv⟩ := IntExpr.element?_eq_some_iff.mp hx
    obtain ⟨rfl, rfl, rfl⟩ := cell_of_rowBeside? h
    exact ⟨hv, .swapped⟩
  · simp only [Option.bind_eq_bind, Option.bind_eq_some_iff] at h
    obtain ⟨⟨u, j⟩, hy, h⟩ := h
    obtain ⟨rfl, hv⟩ := IntExpr.element?_eq_some_iff.mp hy
    obtain ⟨rfl, rfl, rfl⟩ := cell_of_rowBeside? h
    exact ⟨hv, .inOrder⟩

/-- What is claimed as the product of a row and a vector is the idiom. -/
theorem of_claimRowVector {e : IntExpr} {c : Claim} (h : claimRowVector e = some c) :
    Idiom (.int e) c := by
  unfold claimRowVector at h
  split at h
  · simp only [Option.bind_eq_bind, Option.bind_eq_some_iff, Option.some.injEq] at h
    obtain ⟨⟨i, a, v⟩, hp, b, hb, rfl⟩ := h
    obtain ⟨hv, he⟩ := product_of_rowVector? hp
    exact .rowVector (Predicate.bounds?_eq_some_iff.mp hb) hv he
  · cases h

/-- What a built-in trigger claims is an idiom. -/
theorem of_claimOn {t : Trigger} {n : Node} {c : Claim} (ht : t ∈ Trigger.builtin)
    (h : t.claimOn n = some c) : Idiom n c := by
  simp only [Trigger.builtin, List.mem_cons, List.not_mem_nil, or_false] at ht
  cases n with
  | predicate p =>
    rcases ht with rfl | rfl | rfl | rfl | rfl | rfl | rfl
    case inr.inr.inl => exact of_claimContains h
    case inr.inr.inr.inl => exact of_claimPerm h
    all_goals cases h
  | int e =>
    rcases ht with rfl | rfl | rfl | rfl | rfl | rfl | rfl
    · exact of_claimArraySum h
    · exact of_claimArrayProd h
    · cases h
    · cases h
    · exact of_claimMatrixSum h
    · exact of_claimRowColumn h
    · exact of_claimRowVector h
  | var v => rcases ht with rfl | rfl | rfl | rfl | rfl | rfl | rfl <;> cases h
  | expr e => cases h

/-! ## Idioms are claimed -/

/-- An equation of `a[k]` with a value that does not mention `k` is recognised. -/
theorem membership?_of_equation {k : String} {p : Predicate} {a : Variable} {m : IntExpr}
    (h : Equation (.var (.select a (.name k))) m p) (hm : k ∉ m.freeNames) :
    membership? k p = some (a, m) := by
  have ha : (IntExpr.var (.select a (.name k))).indexedBy? k = some a :=
    IntExpr.indexedBy?_eq_some_iff.mpr rfl
  cases h with
  | inOrder => simp [membership?, ha]
  | swapped => simp [membership?, IntExpr.indexedBy?_eq_none hm, ha]

/-- The row and the column are found, unless `k` occurs in the row. -/
theorem rowColumn?_of_product {k : String} {x y row col : IntExpr} {l r : Variable}
    (h : Product (.var (.select (.select l row) (.name k)))
      (.var (.select (.select r (.name k)) col)) (.binary .mult x y))
    (hrow : k ∉ row.freeNames) : rowColumn? k x y = some ⟨row, col, l, r⟩ := by
  cases h with
  | inOrder => simp [rowColumn?, IntExpr.cell?]
  | swapped =>
    -- `b[k][k] * a[k][k]` would be read in order, with `b` on the left
    simp [rowColumn?, IntExpr.cell?, IntExpr.isName_eq_false hrow]

/-- A product of the cells of a row and the elements of a vector is recognised. -/
theorem rowVector?_of_product {k : String} {x y row : IntExpr} {a v : Variable}
    (h : Product (.var (.select (.select a row) (.name k))) (.var (.select v (.name k)))
      (.binary .mult x y)) (hv : ∀ u i, v ≠ .select u i) :
    rowVector? k x y = some (row, a, v) := by
  have helement : (IntExpr.var (.select v (.name k))).element? = some (v, .name k) :=
    IntExpr.element?_eq_some_iff.mpr ⟨rfl, hv⟩
  have hcell : (IntExpr.var (.select (.select a row) (.name k))).element? = none := rfl
  cases h with
  | inOrder => simp [rowVector?, hcell, helement, rowBeside?, IntExpr.cell?]
  | swapped => simp [rowVector?, helement, rowBeside?, IntExpr.cell?]

/-- An idiom is claimed, if its bound variables do not occur in the parts. -/
theorem exists_claimOn {n : Node} {c : Claim} (h : Idiom n c)
    (hfree : ∀ k ∈ n.binders, k ∉ c.freeNames) :
    ∃ t ∈ Trigger.builtin, t.claimOn n = some c := by
  cases h with
  | sum hc =>
    exact ⟨.arraySum, by simp [Trigger.builtin],
      claimArrayFold_eq_some_iff.mpr ⟨_, _, rfl, hc, rfl⟩⟩
  | prod hc =>
    exact ⟨.arrayProd, by simp [Trigger.builtin],
      claimArrayFold_eq_some_iff.mpr ⟨_, _, rfl, hc, rfl⟩⟩
  | contains hc hp hm =>
    refine ⟨.arrayContains, by simp [Trigger.builtin], ?_⟩
    simp [Trigger.claimOn, Trigger.arrayContains, claimContains, membership?_of_equation hp hm, hm,
      Predicate.bounds?_eq_some_iff.mpr hc]
  | perm => exact ⟨.arrayPerm, by simp [Trigger.builtin], rfl⟩
  | matrix hc hd =>
    refine ⟨.matrixSum, by simp [Trigger.builtin], ?_⟩
    simp [Trigger.claimOn, Trigger.matrixSum, claimMatrixSum, IntExpr.cell?,
      Predicate.bounds?_eq_some_iff.mpr hc, Predicate.bounds?_eq_some_iff.mpr hd]
  | @rowColumn k c b row col e l r hc he =>
    refine ⟨.rowColumn, by simp [Trigger.builtin], ?_⟩
    -- If the row were `k` itself, the factors could be taken for each other.
    have hrow : k ∉ row.freeNames := by
      have hk := hfree k (by simp [he.binders_sum])
      simp only [Claim.freeNames_int, List.mem_append, not_or] at hk
      exact hk.2.2.1
    obtain ⟨x, y, rfl⟩ := he.exists_mult
    simp [Trigger.claimOn, Trigger.rowColumn, claimRowColumn, rowColumn?_of_product he hrow,
      Predicate.bounds?_eq_some_iff.mpr hc]
  | rowVector hc hv he =>
    refine ⟨.rowVector, by simp [Trigger.builtin], ?_⟩
    obtain ⟨x, y, rfl⟩ := he.exists_mult
    simp [Trigger.claimOn, Trigger.rowVector, claimRowVector, rowVector?_of_product he hv,
      Predicate.bounds?_eq_some_iff.mpr hc]

end Idiom

end GuardedCommand
