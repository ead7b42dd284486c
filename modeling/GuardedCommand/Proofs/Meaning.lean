import GuardedCommand.Names.Basic
import Mathlib.Algebra.BigOperators.Finprod
import Mathlib.Data.Set.Card
import Mathlib.Logic.Function.Basic

/-! # Meaning of formulas

A state gives every name a value, which is an integer or a map from integers to values. In a state a
variable denotes a value, an integer expression an integer and a predicate a proposition.

* `Value`, `State`: what names stand for.
* `Interpretation`: what called functions and relations, aggregates and counts stand for. It is a
  parameter throughout; `Interpretation.standard` adds, multiplies and counts over finite sets.
* `Variable.value`, `Expr.value`, `IntExpr.value`, `Predicate.Holds`: the meaning of a formula.
* `Predicate.holds_congr` and its companions: a meaning depends on the mentioned names only.

Every use of a name is given a meaning, whichever kind of value it has: as an integer a map is `0`,
and as a map an integer is `0` everywhere.
-/

namespace GuardedCommand

/-- An integer, or a map from integers to values. -/
inductive Value where
  /-- An integer. -/
  | int (n : Int)
  /-- A map, defined at every integer. -/
  | map (f : Int → Value)

namespace Value

/-- A value used as an integer. -/
def toInt : Value → Int
  | .int n => n
  | .map _ => 0

/-- The element of a value at an index. -/
def get : Value → Int → Value
  | .int _, _ => .int 0
  | .map f, i => f i

/-- A value with the element at index `i` replaced. -/
def set (v : Value) (i : Int) (w : Value) : Value :=
  .map (Function.update v.get i w)

/-- The elements of a value at the indices `0, …, n - 1`. -/
def firstElements (v : Value) (n : Int) : List Value :=
  (List.range n.toNat).map fun i => v.get i

/-- An integer used as an integer. -/
@[simp] theorem toInt_int (n : Int) : (Value.int n).toInt = n := rfl

/-- The replaced element is the new one. -/
@[simp] theorem get_set_self (v : Value) (i : Int) (w : Value) : (v.set i w).get i = w := by
  simp [set, get]

/-- Every other element is the old one. -/
@[simp] theorem get_set_of_ne (v : Value) {i j : Int} (h : j ≠ i) (w : Value) :
    (v.set i w).get j = v.get j := by
  simp [set, get, h]

end Value

/-- The values of all names. -/
abbrev State := String → Value

/-- The meaning of what formulas leave open. Each entry depends on the values of its parts only. -/
structure Interpretation where
  /-- The functions that integer expressions call. Like a variable, a call may stand for a map. -/
  function : String → List Value → Value
  /-- The relations that predicates call. -/
  relation : String → List Value → Prop
  /-- The aggregates of an integer over the integers that satisfy a condition. -/
  fold : Aggregate → (Int → Prop) → (Int → Int) → Int
  /-- The number of integers that satisfy two conditions. -/
  count : (Int → Prop) → (Int → Prop) → Int

/-- The interpretation with the usual sums, products and counts; each is taken over a finite set.
Called functions give integers. -/
noncomputable def Interpretation.standard (function : String → List Value → Int)
    (relation : String → List Value → Prop) : Interpretation where
  function f vs := .int (function f vs)
  relation := relation
  fold
    | .sum, condition, inner => finsum fun k => finsum fun _ : condition k => inner k
    | .prod, condition, inner => finprod fun k => finprod fun _ : condition k => inner k
  count condition inner := Set.ncard {k | condition k ∧ inner k}

/-- The integer operation that a sign stands for. -/
def ArithOp.apply : ArithOp → Int → Int → Int
  | .plus, m, n => m + n
  | .minus, m, n => m - n
  | .mult, m, n => m * n

/-- The comparison that a sign stands for. -/
def CompOp.Compares : CompOp → Int → Int → Prop
  | .lt, m, n => m < n
  | .gt, m, n => m > n
  | .le, m, n => m ≤ n
  | .ge, m, n => m ≥ n
  | .eq, m, n => m = n
  | .ne, m, n => m ≠ n

/-- The connective that a sign stands for. -/
def BoolOp.Joins : BoolOp → Prop → Prop → Prop
  | .and, p, q => p ∧ q
  | .or, p, q => p ∨ q
  | .implies, p, q => p → q
  | .iff, p, q => p ↔ q

/-- The quantification of `inner` over the integers that satisfy `condition`. -/
def Quantifier.Ranges : Quantifier → (Int → Prop) → (Int → Prop) → Prop
  | .all, condition, inner => ∀ k, condition k → inner k
  | .some, condition, inner => ∃ k, condition k ∧ inner k

mutual

/-- The value of a variable. -/
def Variable.value (I : Interpretation) : Variable → State → Value
  | .name x, s => s x
  | .select b i, s => (b.value I s).get (i.value I s).toInt
  | .store b i e, s => (b.value I s).set (i.value I s).toInt (e.value I s)

/-- The value of an expression, whichever kind it is of. -/
def Expr.value (I : Interpretation) : Expr → State → Value
  | .map v, s => v.value I s
  | .int e, s => e.value I s

/-- The value of an integer expression. It is an integer unless the expression is a variable or a
call, whose value is then passed on as it is. -/
def IntExpr.value (I : Interpretation) : IntExpr → State → Value
  | .const c, _ => .int c
  | .var v, s => v.value I s
  | .negate e, s => .int (-(e.value I s).toInt)
  | .binary op l r, s => .int (op.apply (l.value I s).toInt (r.value I s).toInt)
  | .call f args, s => I.function f (Expr.valueAll I args s)
  | .fold op k c e, s =>
    .int (I.fold op (fun n => c.Holds I (Function.update s k (.int n)))
      (fun n => (e.value I (Function.update s k (.int n))).toInt))
  | .count k c p, s =>
    .int (I.count (fun n => c.Holds I (Function.update s k (.int n)))
      (fun n => p.Holds I (Function.update s k (.int n))))

/-- Whether a predicate holds in a state. -/
def Predicate.Holds (I : Interpretation) : Predicate → State → Prop
  | .const b, _ => b = true
  | .not p, s => ¬ p.Holds I s
  | .binary op l r, s => op.Joins (l.Holds I s) (r.Holds I s)
  | .comp op l r, s => op.Compares (l.value I s).toInt (r.value I s).toInt
  | .call f args, s => I.relation f (Expr.valueAll I args s)
  | .perm a b n, s =>
    ((b.value I s).firstElements (n.value I s).toInt).Perm
      ((a.value I s).firstElements (n.value I s).toInt)
  | .quant q k c p, s =>
    q.Ranges (fun n => c.Holds I (Function.update s k (.int n)))
      (fun n => p.Holds I (Function.update s k (.int n)))

/-- The values of arguments. -/
def Expr.valueAll (I : Interpretation) : List Expr → State → List Value
  | [], _ => []
  | e :: es, s => e.value I s :: Expr.valueAll I es s

end

/-- The integer that an integer expression stands for. -/
def IntExpr.eval (I : Interpretation) (e : IntExpr) (s : State) : Int :=
  (e.value I s).toInt

variable {I : Interpretation} {s s' : State}

/-! ## Composite formulas -/

/-- A name stands for its value. -/
@[simp] theorem IntExpr.value_name (x : String) : (IntExpr.name x).value I s = s x := by
  simp only [IntExpr.name, IntExpr.value, Variable.value]

/-- A conjunction holds if both predicates do. -/
@[simp] theorem Predicate.holds_and (p q : Predicate) :
    (p.and q).Holds I s ↔ p.Holds I s ∧ q.Holds I s := by
  simp only [Predicate.and, Predicate.Holds, BoolOp.Joins]

/-- An implication holds if the second predicate does as soon as the first does. -/
@[simp] theorem Predicate.holds_implies (p q : Predicate) :
    (p.implies q).Holds I s ↔ (p.Holds I s → q.Holds I s) := by
  simp only [Predicate.implies, Predicate.Holds, BoolOp.Joins]

/-- A comparison compares the integers of its two sides. -/
theorem Predicate.holds_comp (op : CompOp) (l r : IntExpr) :
    (Predicate.comp op l r).Holds I s ↔ op.Compares (l.eval I s) (r.eval I s) := by
  simp only [Predicate.Holds, IntExpr.eval]

/-- A negation holds if the predicate does not. -/
@[simp] theorem Predicate.holds_not (p : Predicate) :
    (Predicate.not p).Holds I s ↔ ¬ p.Holds I s := by
  simp only [Predicate.Holds]

/-- A join of guards from the left holds as soon as one of them does. -/
theorem Predicate.holds_foldl_or (p : Predicate) (ps : List Predicate) :
    (ps.foldl (.binary .or) p).Holds I s ↔ p.Holds I s ∨ ∃ q ∈ ps, q.Holds I s := by
  induction ps generalizing p with
  | nil => simp
  | cons q qs ih =>
    rw [List.foldl_cons, ih]
    simp only [Predicate.Holds, BoolOp.Joins, List.mem_cons, exists_eq_or_imp, or_assoc]

/-- The disjunction of guards holds exactly if one of the guards does. -/
@[simp] theorem Predicate.holds_anyOf (guards : List Predicate) :
    (Predicate.anyOf guards).Holds I s ↔ ∃ g ∈ guards, g.Holds I s := by
  cases guards with
  | nil => simp [Predicate.anyOf, Predicate.join, Predicate.Holds]
  | cons g gs =>
    simp only [Predicate.anyOf, Predicate.join, Option.getD_some, Predicate.holds_foldl_or,
      List.mem_cons, exists_eq_or_imp]

/-- The variable an expression consists of has the value of the expression. -/
theorem Expr.value_of_asVariable {e : Expr} {v : Variable} (h : e.asVariable = some v) :
    e.value I s = v.value I s := by
  cases e with
  | map w =>
    obtain rfl : w = v := by simpa [Expr.asVariable] using h
    rfl
  | int e =>
    cases e with
    | var w =>
      obtain rfl : w = v := by simpa [Expr.asVariable] using h
      rfl
    | _ => simp [Expr.asVariable] at h

/-! ## Dependence on names

A meaning depends on the mentioned names only, whichever occurrences count: the free names are
enough, and more names do no harm. -/

/-- A binder mentions what its parts mention, apart from the bound variable. -/
theorem Mention.mem_binder {m : Mention} {k x : String} {xs : List String} (hx : x ∈ xs)
    (hk : x ≠ k) : x ∈ m.binder k xs := by
  unfold Mention.binder
  split
  · exact List.mem_cons_of_mem k hx
  · exact List.mem_filter.mpr ⟨hx, by simpa using hk⟩

/-- A call mentions what its arguments mention. -/
theorem Mention.mem_call {m : Mention} {f x : String} {xs : List String} (hx : x ∈ xs) :
    x ∈ m.call f xs := by
  unfold Mention.call
  split
  · exact List.mem_cons_of_mem f hx
  · exact hx

variable {m : Mention}

/-- States that agree on the names of a binder of `k` agree below it on the names of both its parts,
once `k` has the same value in both. -/
theorem Mention.update_congr {k : String} {xs ys : List String}
    (h : ∀ x ∈ m.binder k (xs ++ ys), s x = s' x) (v : Value) :
    (∀ x ∈ xs, Function.update s k v x = Function.update s' k v x) ∧
      ∀ x ∈ ys, Function.update s k v x = Function.update s' k v x := by
  have hall : ∀ x ∈ xs ++ ys, Function.update s k v x = Function.update s' k v x := by
    intro x hx
    by_cases hk : x = k
    · subst hk
      rw [Function.update_self, Function.update_self]
    · rw [Function.update_of_ne hk, Function.update_of_ne hk]
      exact h x (Mention.mem_binder hx hk)
  exact ⟨fun x hx => hall x (List.mem_append_left ys hx),
    fun x hx => hall x (List.mem_append_right xs hx)⟩

mutual

/-- The value of a variable depends on its names only. -/
theorem Variable.value_congr :
    ∀ (v : Variable) {s s' : State}, (∀ x ∈ v.names m, s x = s' x) → v.value I s = v.value I s'
  | .name x, s, s', h => by
    simp only [Variable.value]
    exact h x (by simp [Variable.names])
  | .select b i, s, s', h => by
    simp only [Variable.names, List.mem_append] at h
    simp only [Variable.value]
    rw [b.value_congr fun x hx => h x (.inl hx), i.value_congr fun x hx => h x (.inr hx)]
  | .store b i e, s, s', h => by
    simp only [Variable.names, List.mem_append] at h
    simp only [Variable.value]
    rw [b.value_congr fun x hx => h x (.inl (.inl hx)),
      i.value_congr fun x hx => h x (.inl (.inr hx)), e.value_congr fun x hx => h x (.inr hx)]

/-- The value of an expression depends on its names only. -/
theorem Expr.value_congr :
    ∀ (e : Expr) {s s' : State}, (∀ x ∈ e.names m, s x = s' x) → e.value I s = e.value I s'
  | .map v, s, s', h => by
    simp only [Expr.names] at h
    simp only [Expr.value]
    exact v.value_congr h
  | .int e, s, s', h => by
    simp only [Expr.names] at h
    simp only [Expr.value]
    exact e.value_congr h

/-- The value of an integer expression depends on its names only. -/
theorem IntExpr.value_congr :
    ∀ (e : IntExpr) {s s' : State}, (∀ x ∈ e.names m, s x = s' x) → e.value I s = e.value I s'
  | .const c, s, s', _ => by simp only [IntExpr.value]
  | .var v, s, s', h => by
    simp only [IntExpr.names] at h
    simp only [IntExpr.value]
    exact v.value_congr h
  | .negate e, s, s', h => by
    simp only [IntExpr.names] at h
    simp only [IntExpr.value]
    rw [e.value_congr h]
  | .binary op l r, s, s', h => by
    simp only [IntExpr.names, List.mem_append] at h
    simp only [IntExpr.value]
    rw [l.value_congr fun x hx => h x (.inl hx), r.value_congr fun x hx => h x (.inr hx)]
  | .call f args, s, s', h => by
    simp only [IntExpr.names] at h
    simp only [IntExpr.value]
    rw [Expr.valueAll_congr args fun x hx => h x (Mention.mem_call hx)]
  | .fold op k c e, s, s', h => by
    simp only [IntExpr.names] at h
    simp only [IntExpr.value]
    have hc : ∀ n, c.Holds I (Function.update s k (.int n)) =
        c.Holds I (Function.update s' k (.int n)) := fun n =>
      propext (c.holds_congr (Mention.update_congr h _).1)
    have he : ∀ n, e.value I (Function.update s k (.int n)) =
        e.value I (Function.update s' k (.int n)) := fun n =>
      e.value_congr (Mention.update_congr h _).2
    simp only [hc, he]
  | .count k c p, s, s', h => by
    simp only [IntExpr.names] at h
    simp only [IntExpr.value]
    have hc : ∀ n, c.Holds I (Function.update s k (.int n)) =
        c.Holds I (Function.update s' k (.int n)) := fun n =>
      propext (c.holds_congr (Mention.update_congr h _).1)
    have hp : ∀ n, p.Holds I (Function.update s k (.int n)) =
        p.Holds I (Function.update s' k (.int n)) := fun n =>
      propext (p.holds_congr (Mention.update_congr h _).2)
    simp only [hc, hp]

/-- Whether a predicate holds depends on its names only. -/
theorem Predicate.holds_congr :
    ∀ (p : Predicate) {s s' : State}, (∀ x ∈ p.names m, s x = s' x) →
      (p.Holds I s ↔ p.Holds I s')
  | .const b, s, s', _ => by simp only [Predicate.Holds]
  | .not p, s, s', h => by
    simp only [Predicate.names] at h
    simp only [Predicate.Holds]
    rw [p.holds_congr h]
  | .binary op l r, s, s', h => by
    simp only [Predicate.names, List.mem_append] at h
    simp only [Predicate.Holds]
    rw [propext (l.holds_congr fun x hx => h x (.inl hx)),
      propext (r.holds_congr fun x hx => h x (.inr hx))]
  | .comp op l r, s, s', h => by
    simp only [Predicate.names, List.mem_append] at h
    simp only [Predicate.Holds]
    rw [l.value_congr fun x hx => h x (.inl hx), r.value_congr fun x hx => h x (.inr hx)]
  | .call f args, s, s', h => by
    simp only [Predicate.names] at h
    simp only [Predicate.Holds]
    rw [Expr.valueAll_congr args fun x hx => h x (Mention.mem_call hx)]
  | .perm a b n, s, s', h => by
    simp only [Predicate.names, List.mem_append] at h
    simp only [Predicate.Holds]
    rw [a.value_congr fun x hx => h x (.inl (.inl hx)),
      b.value_congr fun x hx => h x (.inl (.inr hx)), n.value_congr fun x hx => h x (.inr hx)]
  | .quant q k c p, s, s', h => by
    simp only [Predicate.names] at h
    simp only [Predicate.Holds]
    have hc : ∀ n, c.Holds I (Function.update s k (.int n)) =
        c.Holds I (Function.update s' k (.int n)) := fun n =>
      propext (c.holds_congr (Mention.update_congr h _).1)
    have hp : ∀ n, p.Holds I (Function.update s k (.int n)) =
        p.Holds I (Function.update s' k (.int n)) := fun n =>
      propext (p.holds_congr (Mention.update_congr h _).2)
    simp only [hc, hp]

/-- The values of arguments depend on their names only. -/
theorem Expr.valueAll_congr :
    ∀ (es : List Expr) {s s' : State}, (∀ x ∈ Expr.namesAll m es, s x = s' x) →
      Expr.valueAll I es s = Expr.valueAll I es s'
  | [], s, s', _ => by simp only [Expr.valueAll]
  | e :: es, s, s', h => by
    simp only [Expr.namesAll, List.mem_append] at h
    simp only [Expr.valueAll]
    rw [e.value_congr fun x hx => h x (.inl hx), Expr.valueAll_congr es fun x hx => h x (.inr hx)]

end

/-- The integer of an expression depends on its names only. -/
theorem IntExpr.eval_congr (e : IntExpr) (h : ∀ x ∈ e.names m, s x = s' x) :
    e.eval I s = e.eval I s' := by
  rw [IntExpr.eval, IntExpr.eval, e.value_congr h]

/-- A name that does not occur in a variable can have any value. -/
theorem Variable.value_update_of_notMem {v : Variable} {x : String} (hx : x ∉ v.freeNames)
    (w : Value) : v.value I (Function.update s x w) = v.value I s := by
  refine Variable.value_congr (m := .free) v fun y hy => Function.update_of_ne ?_ ..
  rintro rfl
  exact hx hy

/-- A name that does not occur in an expression can have any value. -/
theorem IntExpr.eval_update_of_notMem {e : IntExpr} {x : String} (hx : x ∉ e.freeNames)
    (v : Value) : e.eval I (Function.update s x v) = e.eval I s := by
  refine IntExpr.eval_congr (m := .free) e fun y hy => Function.update_of_ne ?_ ..
  rintro rfl
  exact hx hy

end GuardedCommand
