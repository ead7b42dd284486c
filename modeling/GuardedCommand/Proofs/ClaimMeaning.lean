import GuardedCommand.Proofs.Idioms
import GuardedCommand.Proofs.TermMeaning
import Mathlib.Data.Int.ConditionallyCompleteOrder
import Mathlib.Data.Int.Interval

/-! # Meaning of claims

A claim of a built-in trigger means what the node means, as long as no bound variable leaves its
binder with a part.

* `Background.function`, `Background.relation`: what the background definitions are about.
* `Claim.meaning`: what a claim stands for in the place of a node.
* `Range.holds_iff`: a condition that gives a range holds of the integers from its one end to the
  other.
* `Trigger.meaning_of_claimOn`: the idioms are what the built-in triggers claim, and each claim
  means what the idiom means.
-/

namespace GuardedCommand

/-! ## Background functions -/

namespace Background

/-- The integers from one value to another, both included. -/
noncomputable def indices (lo hi : Value) : Finset Int := Finset.Icc lo.toInt hi.toInt

/-- The functions of the background definitions. -/
noncomputable def function : String → List Value → Int
  | "sum", [lo, hi, a] => ∑ k ∈ indices lo hi, (a.get k).toInt
  | "prod", [lo, hi, a] => ∏ k ∈ indices lo hi, (a.get k).toInt
  | "msumrow", [lo, hi, r] => ∑ k ∈ indices lo hi, (r.get k).toInt
  | "msum", [ilo, ihi, jlo, jhi, m] =>
    ∑ i ∈ indices ilo ihi, ∑ j ∈ indices jlo jhi, ((m.get i).get j).toInt
  | "rowcolprod", [lo, hi, row, col, a, b] =>
    ∑ k ∈ indices lo hi, ((a.get row.toInt).get k).toInt * ((b.get k).get col.toInt).toInt
  | "rowvecprod", [lo, hi, row, a, v] =>
    ∑ k ∈ indices lo hi, ((a.get row.toInt).get k).toInt * (v.get k).toInt
  | _, _ => 0

/-- The relations of the background definitions. -/
def relation : String → List Value → Prop
  | "contains", [lo, hi, a, m] => ∃ k ∈ indices lo hi, (a.get k).toInt = m.toInt
  | "perm", [a, b, n] => (b.firstElements n.toInt).Perm (a.firstElements n.toInt)
  | _, _ => False

end Background

namespace Claim

/-- Whether a claim on a predicate holds. Each part stands for its own value. -/
def Holds (I : Interpretation) : Claim → State → Prop
  | .fixed t, s => t.Holds I s
  | .apply head parts, s => Background.relation head (Expr.valueAll I parts s)

/-- The value of a claim on an integer expression. Each part stands for its own value. -/
noncomputable def value (I : Interpretation) : Claim → State → Value
  | .fixed t, s => t.value I s
  | .apply head parts, s => .int (Background.function head (Expr.valueAll I parts s))

/-- What a claim stands for in the place of a node. -/
noncomputable def meaning (I : Interpretation) (c : Claim) : Node → State → Meaning
  | .predicate _, s => .truth (c.Holds I s)
  | _, s => .value (c.value I s)

end Claim

/-- Where a trigger alone is enabled, the node that it claims becomes the term of the claim. -/
theorem Node.lower_of_claimOn {t : Trigger} {n : Node} {c : Claim} (h : t.claimOn n = some c) :
    n.lower [t] = c.lower [t] := by
  have hclaims : Trigger.claims (·.claimOn n) [t] = [(t.name, c)] := by
    simp [Trigger.claims, h]
  exact Node.lower_of_claims hclaims

/-! ## Ranges -/

section

variable {I : Interpretation} {s : State} {k : String} {n : Int}

/-- Whether an integer is on the right side of an end of a range. -/
def RangeEnd.Admits (I : Interpretation) (s : State) (n : Int) : RangeEnd → Prop
  | .lower e => e.eval I s ≤ n
  | .upper e => n ≤ e.eval I s

/-- A bound variable stands for the integer that it is given. -/
theorem IntExpr.eval_name_update :
    (IntExpr.name k).eval I (Function.update s k (.int n)) = n := by
  rw [IntExpr.eval, IntExpr.value_name, Function.update_self, Value.toInt_int]

/-- A sum evaluates to the sum of its terms. -/
theorem IntExpr.eval_plus (l r : IntExpr) : (l.plus r).eval I s = l.eval I s + r.eval I s := by
  simp only [IntExpr.eval, IntExpr.plus, IntExpr.value, ArithOp.apply, Value.toInt_int]

/-- A difference evaluates to the difference of its terms. -/
theorem IntExpr.eval_minus (l r : IntExpr) : (l.minus r).eval I s = l.eval I s - r.eval I s := by
  simp only [IntExpr.eval, IntExpr.minus, IntExpr.value, ArithOp.apply, Value.toInt_int]

/-- A constant evaluates to itself. -/
theorem IntExpr.eval_const (c : Int) : (IntExpr.const c).eval I s = c := by
  simp only [IntExpr.eval, IntExpr.value, Value.toInt_int]

/-- A comparison holds of the integers on the right side of the end that it gives; a strict one does
so because the end is the next integer. -/
theorem Ends.holds_iff {p : Predicate} {r : RangeEnd} (h : Ends k p r)
    (hk : k ∉ r.value.freeNames) :
    p.Holds I (Function.update s k (.int n)) ↔ r.Admits I s n := by
  cases h with
  | le | ge | leName | geName =>
    rw [RangeEnd.value] at hk
    rw [Predicate.holds_comp, IntExpr.eval_name_update, IntExpr.eval_update_of_notMem hk]
    rfl
  | lt | gt | ltName | gtName =>
    -- the end is `e - 1` or `e + 1`, which mentions what `e` mentions
    simp only [RangeEnd.value, IntExpr.plus, IntExpr.minus, IntExpr.freeNames_binary,
      IntExpr.freeNames_const, List.append_nil] at hk
    rw [Predicate.holds_comp, IntExpr.eval_name_update, IntExpr.eval_update_of_notMem hk]
    simp only [CompOp.Compares, RangeEnd.Admits, IntExpr.eval_plus, IntExpr.eval_minus,
      IntExpr.eval_const]
    omega

/-- A condition that gives `k` a range holds of the integers from its one end to the other. -/
theorem Range.holds_iff {c : Predicate} {b : Bounds} (h : Range k c b) (hlo : k ∉ b.lo.freeNames)
    (hhi : k ∉ b.hi.freeNames) :
    c.Holds I (Function.update s k (.int n)) ↔ n ∈ Finset.Icc (b.lo.eval I s) (b.hi.eval I s) := by
  rw [Finset.mem_Icc]
  cases h with
  | lowerFirst hp hq =>
    rw [← Predicate.and, Predicate.holds_and, hp.holds_iff hlo, hq.holds_iff hhi]
    rfl
  | upperFirst hp hq =>
    rw [← Predicate.and, Predicate.holds_and, hp.holds_iff hhi, hq.holds_iff hlo, and_comm]
    rfl

end

/-! ## Aggregates over a range -/

section

variable {F : String → List Value → Int} {R : String → List Value → Prop} {s : State} {k : String}
  {c : Predicate} {b : Bounds} {e : IntExpr}

/-- The usual sum over a condition that describes a finite set is the sum over this set. -/
theorem Interpretation.standard_fold_sum {condition : Int → Prop} {indices : Finset Int}
    (h : ∀ n, condition n ↔ n ∈ indices) (inner : Int → Int) :
    (Interpretation.standard F R).fold .sum condition inner = ∑ n ∈ indices, inner n := by
  simp only [Interpretation.standard, h]
  exact finsum_mem_coe_finset inner indices

/-- The usual product over a condition that describes a finite set is the product over this set. -/
theorem Interpretation.standard_fold_prod {condition : Int → Prop} {indices : Finset Int}
    (h : ∀ n, condition n ↔ n ∈ indices) (inner : Int → Int) :
    (Interpretation.standard F R).fold .prod condition inner = ∏ n ∈ indices, inner n := by
  simp only [Interpretation.standard, h]
  exact finprod_mem_coe_finset inner indices

/-- A sum over a range adds up what the summand evaluates to from its one end to the other. -/
theorem IntExpr.value_sum (h : Range k c b) (hlo : k ∉ b.lo.freeNames) (hhi : k ∉ b.hi.freeNames) :
    (IntExpr.fold .sum k c e).value (.standard F R) s =
      .int (∑ n ∈ Finset.Icc (b.lo.eval (.standard F R) s) (b.hi.eval (.standard F R) s),
        e.eval (.standard F R) (Function.update s k (.int n))) := by
  rw [IntExpr.value, Interpretation.standard_fold_sum fun n => h.holds_iff hlo hhi]
  rfl

/-- A product over a range multiplies what the factor evaluates to from its one end to the other. -/
theorem IntExpr.value_prod (h : Range k c b) (hlo : k ∉ b.lo.freeNames) (hhi : k ∉ b.hi.freeNames) :
    (IntExpr.fold .prod k c e).value (.standard F R) s =
      .int (∏ n ∈ Finset.Icc (b.lo.eval (.standard F R) s) (b.hi.eval (.standard F R) s),
        e.eval (.standard F R) (Function.update s k (.int n))) := by
  rw [IntExpr.value, Interpretation.standard_fold_prod fun n => h.holds_iff hlo hhi]
  rfl

end

/-! ## Elements, equations and products -/

section

variable {I : Interpretation} {s : State} {k : String} {n : Int}

/-- A variable evaluates to its value as an integer. -/
theorem IntExpr.eval_var (v : Variable) : (IntExpr.var v).eval I s = (v.value I s).toInt := by
  rw [IntExpr.eval, IntExpr.value]

/-- An element has the value of the array at the index. -/
theorem Variable.value_select (b : Variable) (i : IntExpr) :
    (Variable.select b i).value I s = (b.value I s).get (i.eval I s) := by
  rw [Variable.value, IntExpr.eval]

/-- The element at the bound variable is that at its value. -/
theorem Variable.value_select_name {a : Variable} (ha : k ∉ a.freeNames) :
    (Variable.select a (.name k)).value I (Function.update s k (.int n)) = (a.value I s).get n := by
  rw [Variable.value_select, Variable.value_update_of_notMem ha, IntExpr.eval_name_update]

/-- An equation holds if its two sides evaluate to the same, whichever comes first. -/
theorem Equation.holds_iff {x y : IntExpr} {p : Predicate} (h : Equation x y p) :
    p.Holds I s ↔ x.eval I s = y.eval I s := by
  cases h with
  | inOrder => rw [Predicate.holds_comp, CompOp.Compares]
  | swapped => rw [Predicate.holds_comp, CompOp.Compares, eq_comm]

/-- A product evaluates to the product of its factors, whichever comes first. -/
theorem Product.eval_eq {x y e : IntExpr} (h : Product x y e) :
    e.eval I s = x.eval I s * y.eval I s := by
  cases h with
  | inOrder => simp only [IntExpr.eval, IntExpr.value, ArithOp.apply, Value.toInt_int]
  | swapped => simp only [IntExpr.eval, IntExpr.value, ArithOp.apply, Value.toInt_int, mul_comm]

end

/-! ## Claims -/

section

variable {F : String → List Value → Int} {R : String → List Value → Prop} {s : State} {k : String}
  {c : Predicate} {b : Bounds}

/-- The sum of an array over a range. -/
theorem IntExpr.value_sum_element {a : Variable} (hc : Range k c b) (hlo : k ∉ b.lo.freeNames)
    (hhi : k ∉ b.hi.freeNames) (ha : k ∉ a.freeNames) :
    (IntExpr.fold .sum k c (.var (.select a (.name k)))).value (.standard F R) s =
      .int (∑ n ∈ Finset.Icc (b.lo.eval (.standard F R) s) (b.hi.eval (.standard F R) s),
        ((a.value (.standard F R) s).get n).toInt) := by
  simp only [IntExpr.value_sum hc hlo hhi, IntExpr.eval_var, Variable.value_select_name ha]

/-- The sum of a matrix over two ranges, of which the inner does not depend on the row. -/
theorem IntExpr.value_sum_cell {i j : String} {d : Predicate} {rows cols : Bounds} {m : Variable}
    (hc : Range i c rows) (hd : Range j d cols) (hij : i ≠ j)
    (hi : i ∉ rows.lo.freeNames ∧ i ∉ rows.hi.freeNames ∧ i ∉ cols.lo.freeNames ∧
      i ∉ cols.hi.freeNames ∧ i ∉ m.freeNames)
    (hj : j ∉ cols.lo.freeNames ∧ j ∉ cols.hi.freeNames ∧ j ∉ m.freeNames) :
    (IntExpr.fold .sum i c
      (.fold .sum j d (.var (.select (.select m (.name i)) (.name j))))).value (.standard F R) s =
      .int (∑ p ∈ Finset.Icc (rows.lo.eval (.standard F R) s) (rows.hi.eval (.standard F R) s),
        ∑ q ∈ Finset.Icc (cols.lo.eval (.standard F R) s) (cols.hi.eval (.standard F R) s),
          (((m.value (.standard F R) s).get p).get q).toInt) := by
  obtain ⟨hrlo, hrhi, hclo, hchi, him⟩ := hi
  obtain ⟨hjlo, hjhi, hjm⟩ := hj
  have hrow : j ∉ (Variable.select m (.name i)).freeNames := by simp [hjm, hij.symm]
  rw [IntExpr.value_sum hc hrlo hrhi]
  congr 1
  refine Finset.sum_congr rfl fun p _ => ?_
  -- the sum of row `p`, in the state in which `i` is `p`
  rw [IntExpr.eval, IntExpr.value_sum_element hd hjlo hjhi hrow, Value.toInt_int,
    IntExpr.eval_update_of_notMem hclo, IntExpr.eval_update_of_notMem hchi,
    Variable.value_select_name him]

/-- The sum of a product over a range. -/
theorem IntExpr.value_sum_product {x y e : IntExpr} (hc : Range k c b) (hlo : k ∉ b.lo.freeNames)
    (hhi : k ∉ b.hi.freeNames) (he : Product x y e) :
    (IntExpr.fold .sum k c e).value (.standard F R) s =
      .int (∑ n ∈ Finset.Icc (b.lo.eval (.standard F R) s) (b.hi.eval (.standard F R) s),
        x.eval (.standard F R) (Function.update s k (.int n)) *
          y.eval (.standard F R) (Function.update s k (.int n))) := by
  simp only [IntExpr.value_sum hc hlo hhi, he.eval_eq]

end

/-- A claim means what the idiom means, if the bound variables are different and do not occur in the
parts. -/
theorem Idiom.meaning_eq {F : String → List Value → Int} {R : String → List Value → Prop} {n : Node}
    {c : Claim} (h : Idiom n c) (hdistinct : n.binders.Nodup)
    (hfree : ∀ k ∈ n.binders, k ∉ c.freeNames) (s : State) :
    c.meaning (.standard F R) n s = n.meaning (.standard F R) s := by
  -- In each case the bound variable does not occur in the parts of the claim, so they keep their
  -- values while it runs over the range.
  cases h with
  | @sum k c b a hc =>
    obtain ⟨hlo, hhi, ha⟩ : k ∉ b.lo.freeNames ∧ k ∉ b.hi.freeNames ∧ k ∉ a.freeNames := by
      simpa [Node.binders] using hfree
    rw [Node.meaning, IntExpr.value_sum_element hc hlo hhi ha]
    rfl
  | @prod k c b a hc =>
    obtain ⟨hlo, hhi, ha⟩ : k ∉ b.lo.freeNames ∧ k ∉ b.hi.freeNames ∧ k ∉ a.freeNames := by
      simpa [Node.binders] using hfree
    simp only [Node.meaning, IntExpr.value_prod hc hlo hhi, IntExpr.eval_var,
      Variable.value_select_name ha]
    rfl
  | @contains k c p b a m hc hp hm =>
    obtain ⟨hlo, hhi, ha, -⟩ :
        k ∉ b.lo.freeNames ∧ k ∉ b.hi.freeNames ∧ k ∉ a.freeNames ∧ k ∉ m.freeNames := by
      simpa [Node.binders] using hfree
    simp only [Node.meaning, Predicate.Holds, Quantifier.Ranges, hc.holds_iff hlo hhi, hp.holds_iff,
      IntExpr.eval_var, Variable.value_select_name ha, IntExpr.eval_update_of_notMem hm]
    rfl
  | perm =>
    simp only [Node.meaning, Predicate.Holds]
    rfl
  | @matrix i j c d rows cols m hc hd =>
    -- With the same name for both, the inner binder would hide the row.
    have hij : i ≠ j := by simpa [Node.binders] using hdistinct
    obtain ⟨hi, -, -, hj⟩ : (i ∉ rows.lo.freeNames ∧ i ∉ rows.hi.freeNames ∧
        i ∉ cols.lo.freeNames ∧ i ∉ cols.hi.freeNames ∧ i ∉ m.freeNames) ∧
        j ∉ rows.lo.freeNames ∧ j ∉ rows.hi.freeNames ∧ j ∉ cols.lo.freeNames ∧
        j ∉ cols.hi.freeNames ∧ j ∉ m.freeNames := by
      simpa [Node.binders] using hfree
    rw [Node.meaning, IntExpr.value_sum_cell hc hd hij hi hj]
    rfl
  | @rowColumn k c b row col e l r hc he =>
    obtain ⟨hlo, hhi, hrow, hcol, hl, hr⟩ : k ∉ b.lo.freeNames ∧ k ∉ b.hi.freeNames ∧
        k ∉ row.freeNames ∧ k ∉ col.freeNames ∧ k ∉ l.freeNames ∧ k ∉ r.freeNames := by
      simpa [he.binders_sum] using hfree
    have hlrow : k ∉ (Variable.select l row).freeNames := by simp [hl, hrow]
    simp only [Node.meaning, IntExpr.value_sum_product hc hlo hhi he, IntExpr.eval_var,
      Variable.value_select_name hlrow, Variable.value_select _ col,
      Variable.value_select_name hr, IntExpr.eval_update_of_notMem hcol]
    rfl
  | @rowVector k c b row e a v hc hv he =>
    obtain ⟨hlo, hhi, hrow, ha, hv⟩ : k ∉ b.lo.freeNames ∧ k ∉ b.hi.freeNames ∧
        k ∉ row.freeNames ∧ k ∉ a.freeNames ∧ k ∉ v.freeNames := by
      simpa [he.binders_sum] using hfree
    have harow : k ∉ (Variable.select a row).freeNames := by simp [ha, hrow]
    simp only [Node.meaning, IntExpr.value_sum_product hc hlo hhi he, IntExpr.eval_var,
      Variable.value_select_name harow, Variable.value_select_name hv]
    rfl

/-- The built-in triggers claim the idioms, each with its claim, and what they claim becomes the
term of the claim and means what the node means. The bound variables have to be different and must
not occur in the parts. -/
theorem Trigger.meaning_of_claimOn {n : Node} {c : Claim} (hdistinct : n.binders.Nodup)
    (hfree : ∀ k ∈ n.binders, ∀ e ∈ c.parts, k ∉ e.freeNames) :
    ((∃ t ∈ Trigger.builtin, t.claimOn n = some c) ↔ Idiom n c) ∧
      ∀ t ∈ Trigger.builtin, t.claimOn n = some c → n.lower [t] = c.lower [t] ∧
        ∀ F R s, c.meaning (.standard F R) n s = n.meaning (.standard F R) s := by
  have hnames : ∀ k ∈ n.binders, k ∉ c.freeNames := by
    intro k hk hmem
    obtain ⟨e, he, hke⟩ := List.mem_flatMap.mp hmem
    exact hfree k hk e he hke
  refine ⟨⟨?_, fun h => h.exists_claimOn hnames⟩, fun t ht h => ⟨Node.lower_of_claimOn h, ?_⟩⟩
  · rintro ⟨t, ht, h⟩
    exact Idiom.of_claimOn ht h
  · exact fun F R s => (Idiom.of_claimOn ht h).meaning_eq hdistinct hnames s

/-- The product `(SUM k : n > k ∧ k ≥ 0 : b[k][j] * a[i][k])` of a row and a column. -/
def rowOnColumn : IntExpr :=
  let k : IntExpr := .name "k"
  .fold .sum "k" (.and (.comp .gt (.name "n") k) (.comp .ge k (.const 0)))
    (.binary .mult (.var (.select (.select (.name "b") k) (.name "j")))
      (.var (.select (.select (.name "a") (.name "i")) k)))

/-- For two columns, `a[i] = (10, 11)` and `b[k][j] = k + 1` the product is `1 * 10 + 2 * 11`. -/
theorem rowOnColumn_meaning :
    let I : Interpretation := .standard (fun _ _ => 0) fun _ _ => False
    let s : State := fun x =>
      if x = "n" then .int 2
      else if x = "i" then .int 1
      else if x = "j" then .int 0
      else if x = "a" then .map fun i => .map fun k => .int (10 * i + k)
      else .map fun k => .map fun j => .int (k + j + 1)
    let c : Claim := .apply "rowcolprod"
      [.int (.const 0), .int (.minus (.name "n") (.const 1)), .int (.name "i"), .int (.name "j"),
        .map (.name "a"), .map (.name "b")]
    let n := Node.int rowOnColumn
    n.binders.Nodup ∧ (∀ k ∈ n.binders, ∀ e ∈ c.parts, k ∉ e.freeNames) ∧
      Trigger.rowColumn ∈ Trigger.builtin ∧ Trigger.rowColumn.claimOn n = some c ∧
      n.meaning I s = .value (.int 32) := by
  intro I s c n
  have hdistinct : n.binders.Nodup := by decide
  have hfree : ∀ k ∈ n.binders, ∀ e ∈ c.parts, k ∉ e.freeNames := by decide
  have ht : Trigger.rowColumn ∈ Trigger.builtin := by simp [Trigger.builtin]
  refine ⟨hdistinct, hfree, ht, rfl, ?_⟩
  rw [← ((Trigger.meaning_of_claimOn hdistinct hfree).2 _ ht rfl).2]
  rfl

end GuardedCommand
