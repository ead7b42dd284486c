import GuardedCommand.Proofs.ExclusiveClaims

/-! # Scope of instantiation hints

The hint of a quantifier over `k` is an element `a[k]` somewhere inside the quantifier, and it is
written in front of the formula. There its own `k` is in scope, since no binder on the way to the
element has this name. A variable of any other binder on the way is not in scope there, and nothing
keeps it from occurring in `a`.

* `Element`, `Predicate.elements` and its companions: all elements of a formula, each with the
  binders around it, from left to right and outside in.
* `Predicate.hint?_eq` and its companions: the hint is the first element that fits.
* `Element.Within`, `Predicate.within_elements` and its companions: a name in an element is free in
  the formula, unless a binder around the element has it.
* `Predicate.scope_of_hint?`: where a hint comes from and which of its names are in scope.
-/

namespace GuardedCommand

/-! ## Elements of a formula -/

/-- An element `base[index]` inside a formula. -/
structure Element where
  /-- The variables of the binders around it, from the outside in. -/
  binders : List String
  /-- The map. -/
  base : Variable
  /-- The index. -/
  index : IntExpr

namespace Element

/-- The element by itself. -/
def toVariable (o : Element) : Variable := .select o.base o.index

/-- The element with a binder around the formula. -/
def under (k : String) (o : Element) : Element := { o with binders := k :: o.binders }

/-- Whether an element may be the hint of a quantifier over `k`: its index is `k`, and `k` is not
the variable of a binder around it. -/
def isHint (k : String) (o : Element) : Bool := o.index.isName k && !o.binders.contains k

/-- An element is a hint for `k` if its index is `k` and no binder around it has this name. -/
theorem isHint_iff {k : String} {o : Element} :
    o.isHint k = true ↔ o.index = .name k ∧ k ∉ o.binders := by
  simp [isHint, IntExpr.isName_iff]

/-- Inside a binder of `k` an element is no hint for `k`, and inside any other it is one as
before. -/
theorem isHint_under (j k : String) (o : Element) :
    (o.under j).isHint k = (decide (j ≠ k) && o.isHint k) := by
  by_cases hjk : j = k
  · simp [isHint, under, hjk]
  · have hkj : k ≠ j := fun h => hjk h.symm
    simp [isHint, under, hjk, hkj]

end Element

mutual

/-- The elements in a variable, the variable itself first if it is one. -/
def Variable.elements : Variable → List Element
  | .name _ => []
  | .select b i => ⟨[], b, i⟩ :: (b.elements ++ i.elements)
  | .store b i e => b.elements ++ (i.elements ++ e.elements)

/-- The elements in an expression. -/
def Expr.elements : Expr → List Element
  | .map v => v.elements
  | .int e => e.elements

/-- The elements in an integer expression. -/
def IntExpr.elements : IntExpr → List Element
  | .const _ => []
  | .var v => v.elements
  | .negate e => e.elements
  | .binary _ l r => l.elements ++ r.elements
  | .call _ args => Expr.elementsAll args
  | .fold _ k c e => (c.elements ++ e.elements).map (Element.under k)
  | .count k c p => (c.elements ++ p.elements).map (Element.under k)

/-- The elements in a predicate. -/
def Predicate.elements : Predicate → List Element
  | .const _ => []
  | .not p => p.elements
  | .binary _ l r => l.elements ++ r.elements
  | .comp _ l r => l.elements ++ r.elements
  | .call _ args => Expr.elementsAll args
  | .perm a b n => a.elements ++ (b.elements ++ n.elements)
  | .quant _ k c p => (c.elements ++ p.elements).map (Element.under k)

/-- The elements in a list of arguments. -/
def Expr.elementsAll : List Expr → List Element
  | [] => []
  | e :: es => e.elements ++ Expr.elementsAll es

end

/-! ## The hint is the first element that fits -/

namespace Element

variable {k : String}

/-- The first element that fits, by itself. -/
def firstHint? (k : String) (os : List Element) : Option Variable :=
  (os.find? (·.isHint k)).map toVariable

/-- Without elements there is no hint. -/
theorem firstHint?_nil : firstHint? k [] = none := rfl

/-- An element with the index `k` is the hint, and any other is passed over. -/
theorem firstHint?_select (b : Variable) (i : IntExpr) (os : List Element) :
    firstHint? k (⟨[], b, i⟩ :: os) =
      if i.isName k then some (.select b i) else firstHint? k os := by
  have hfits : isHint k ⟨[], b, i⟩ = i.isName k := by simp [isHint]
  rw [firstHint?, List.find?_cons, hfits]
  cases i.isName k <;> rfl

/-- The first hint of two lists is that of the first or else that of the second. -/
theorem firstHint?_append (os os' : List Element) :
    firstHint? k (os ++ os') = (firstHint? k os <|> firstHint? k os') := by
  rw [Option.orElse_eq_orElse, Option.orElse_eq_or, firstHint?, List.find?_append, Option.map_or,
    firstHint?, firstHint?]

/-- A binder of another name leaves all elements in place, one of this name hides them. -/
theorem firstHint?_under (j : String) (os : List Element) :
    firstHint? k (os.map (under j)) = if j = k then none else firstHint? k os := by
  rw [firstHint?, List.find?_map, Option.map_map]
  by_cases hjk : j = k
  · have hnone : os.find? ((·.isHint k) ∘ under j) = none := by
      rw [List.find?_eq_none]
      intro o _
      simp [isHint_under, hjk]
    rw [hnone, if_pos hjk]
    rfl
  · have hsame : ((·.isHint k) ∘ under j) = (·.isHint k) := by
      funext o
      simp [isHint_under, hjk]
    rw [hsame, if_neg hjk]
    rfl

end Element

open Element

mutual

/-- The hint of a variable is the first element that fits. -/
theorem Variable.hint?_eq (k : String) :
    ∀ v : Variable, v.hint? k = firstHint? k v.elements
  | .name x => by simp only [Variable.hint?, Variable.elements, firstHint?_nil]
  | .select b i => by
    simp only [Variable.hint?, Variable.elements, firstHint?_select, firstHint?_append,
      b.hint?_eq k, i.hint?_eq k]
  | .store b i e => by
    simp only [Variable.hint?, Variable.elements, firstHint?_append, b.hint?_eq k, i.hint?_eq k,
      e.hint?_eq k]

/-- The hint of an expression is the first element that fits. -/
theorem Expr.hint?_eq (k : String) : ∀ e : Expr, e.hint? k = firstHint? k e.elements
  | .map v => by simp only [Expr.hint?, Expr.elements, v.hint?_eq k]
  | .int e => by simp only [Expr.hint?, Expr.elements, e.hint?_eq k]

/-- The hint of an integer expression is the first element that fits. -/
theorem IntExpr.hint?_eq (k : String) :
    ∀ e : IntExpr, e.hint? k = firstHint? k e.elements
  | .const c => by simp only [IntExpr.hint?, IntExpr.elements, firstHint?_nil]
  | .var v => by simp only [IntExpr.hint?, IntExpr.elements, v.hint?_eq k]
  | .negate e => by simp only [IntExpr.hint?, IntExpr.elements, e.hint?_eq k]
  | .binary op l r => by
    simp only [IntExpr.hint?, IntExpr.elements, firstHint?_append, l.hint?_eq k, r.hint?_eq k]
  | .call f args => by simp only [IntExpr.hint?, IntExpr.elements, Expr.hintAll?_eq k args]
  | .fold op j c e => by
    simp only [IntExpr.hint?, IntExpr.elements, firstHint?_under, firstHint?_append, c.hint?_eq k,
      e.hint?_eq k]
  | .count j c p => by
    simp only [IntExpr.hint?, IntExpr.elements, firstHint?_under, firstHint?_append, c.hint?_eq k,
      p.hint?_eq k]

/-- The hint in a predicate is the first of its elements that fits. -/
theorem Predicate.hint?_eq (k : String) :
    ∀ p : Predicate, p.hint? k = firstHint? k p.elements
  | .const b => by simp only [Predicate.hint?, Predicate.elements, firstHint?_nil]
  | .not p => by simp only [Predicate.hint?, Predicate.elements, p.hint?_eq k]
  | .binary op l r => by
    simp only [Predicate.hint?, Predicate.elements, firstHint?_append, l.hint?_eq k, r.hint?_eq k]
  | .comp op l r => by
    simp only [Predicate.hint?, Predicate.elements, firstHint?_append, l.hint?_eq k, r.hint?_eq k]
  | .call f args => by simp only [Predicate.hint?, Predicate.elements, Expr.hintAll?_eq k args]
  | .perm a b n => by
    simp only [Predicate.hint?, Predicate.elements, firstHint?_append, a.hint?_eq k, b.hint?_eq k,
      n.hint?_eq k]
  | .quant q j c p => by
    simp only [Predicate.hint?, Predicate.elements, firstHint?_under, firstHint?_append,
      c.hint?_eq k, p.hint?_eq k]

/-- The hint of arguments is the first element that fits. -/
theorem Expr.hintAll?_eq (k : String) :
    ∀ es : List Expr, Expr.hintAll? k es = firstHint? k (Expr.elementsAll es)
  | [] => by simp only [Expr.hintAll?, Expr.elementsAll, firstHint?_nil]
  | e :: es => by
    simp only [Expr.hintAll?, Expr.elementsAll, firstHint?_append, e.hint?_eq k,
      Expr.hintAll?_eq k es]

end

/-! ## Names in elements -/

namespace Element

/-- Each name of an element is one of `xs`, unless a binder around the element has it. -/
def Within (xs : List String) (o : Element) : Prop :=
  ∀ x ∈ o.toVariable.freeNames, x ∉ o.binders → x ∈ xs

variable {xs ys : List String} {os os' : List Element}

/-- Elements of two parts have the names of both parts. -/
theorem within_append (h : ∀ o ∈ os, o.Within xs) (h' : ∀ o ∈ os', o.Within ys) :
    ∀ o ∈ os ++ os', o.Within (xs ++ ys) := by
  rw [List.forall_mem_append]
  constructor
  · intro o ho x hx hbinders
    exact List.mem_append_left ys (h o ho x hx hbinders)
  · intro o ho x hx hbinders
    exact List.mem_append_right xs (h' o ho x hx hbinders)

/-- A binder takes its variable away from the names of the formula and has it in the elements. -/
theorem within_under (k : String) (h : ∀ o ∈ os, o.Within xs) :
    ∀ o ∈ os.map (under k), o.Within (Mention.free.binder k xs) := by
  rw [List.forall_mem_map]
  intro o ho x hx hbinders
  rw [under, List.mem_cons, not_or] at hbinders
  exact Mention.mem_binder_free.mpr ⟨h o ho x hx hbinders.2, hbinders.1⟩

end Element

mutual

/-- The names of the elements of a variable are free in it, or bound around them. -/
theorem Variable.within_elements : ∀ v : Variable, ∀ o ∈ v.elements, o.Within v.freeNames
  | .name x => by simp [Variable.elements]
  | .select b i => by
    rw [Variable.elements, List.forall_mem_cons, Variable.freeNames_select]
    refine ⟨fun x hx _ => ?_, within_append b.within_elements i.within_elements⟩
    rwa [toVariable, Variable.freeNames_select] at hx
  | .store b i e => by
    rw [Variable.elements, Variable.freeNames_store, List.append_assoc]
    exact within_append b.within_elements (within_append i.within_elements e.within_elements)

/-- The names of the elements of an expression are free in it, or bound around them. -/
theorem Expr.within_elements : ∀ e : Expr, ∀ o ∈ e.elements, o.Within e.freeNames
  | .map v => by
    rw [Expr.elements]
    exact v.within_elements
  | .int e => by
    rw [Expr.elements]
    exact e.within_elements

/-- The names of the elements of an integer expression are free in it, or bound around them. -/
theorem IntExpr.within_elements : ∀ e : IntExpr, ∀ o ∈ e.elements, o.Within e.freeNames
  | .const c => by simp [IntExpr.elements]
  | .var v => by
    rw [IntExpr.elements, IntExpr.freeNames, IntExpr.names]
    exact v.within_elements
  | .negate e => by
    rw [IntExpr.elements, IntExpr.freeNames, IntExpr.names]
    exact e.within_elements
  | .binary op l r => by
    rw [IntExpr.elements, IntExpr.freeNames_binary]
    exact within_append l.within_elements r.within_elements
  | .call f args => by
    rw [IntExpr.elements, IntExpr.freeNames, IntExpr.names]
    exact Expr.within_elementsAll args
  | .fold op k c e => by
    rw [IntExpr.elements, IntExpr.freeNames, IntExpr.names]
    exact within_under k (within_append c.within_elements e.within_elements)
  | .count k c p => by
    rw [IntExpr.elements, IntExpr.freeNames, IntExpr.names]
    exact within_under k (within_append c.within_elements p.within_elements)

/-- A name in an element of a predicate is free in the predicate, unless a binder around the element
has it. -/
theorem Predicate.within_elements : ∀ p : Predicate, ∀ o ∈ p.elements, o.Within p.freeNames
  | .const b => by simp [Predicate.elements]
  | .not p => by
    rw [Predicate.elements, Predicate.freeNames, Predicate.names]
    exact p.within_elements
  | .binary op l r => by
    rw [Predicate.elements, Predicate.freeNames_binary]
    exact within_append l.within_elements r.within_elements
  | .comp op l r => by
    rw [Predicate.elements, Predicate.freeNames_comp]
    exact within_append l.within_elements r.within_elements
  | .call f args => by
    rw [Predicate.elements, Predicate.freeNames, Predicate.names]
    exact Expr.within_elementsAll args
  | .perm a b n => by
    rw [Predicate.elements, Predicate.freeNames_perm, List.append_assoc]
    exact within_append a.within_elements (within_append b.within_elements n.within_elements)
  | .quant q k c p => by
    rw [Predicate.elements, Predicate.freeNames, Predicate.names]
    exact within_under k (within_append c.within_elements p.within_elements)

/-- The names of the elements of arguments are free in them, or bound around them. -/
theorem Expr.within_elementsAll :
    ∀ es : List Expr, ∀ o ∈ Expr.elementsAll es, o.Within (Expr.namesAll .free es)
  | [] => by simp [Expr.elementsAll]
  | e :: es => by
    rw [Expr.elementsAll, Expr.namesAll]
    exact within_append e.within_elements (Expr.within_elementsAll es)

end

/-! ## Hints -/

namespace Predicate

variable {k x : String} {p c : Predicate} {v : Variable} {o : Element}

/-- A name in an element that no binder around it has is free in a quantifier around the formula, or
the variable of the quantifier. -/
theorem mem_freeNames_of_element (ho : o ∈ p.elements) (hx : x ∈ o.toVariable.freeNames)
    (hbinders : x ∉ o.binders) : x = k ∨ x ∈ (quant .all k c p).freeNames := by
  have hp : x ∈ p.freeNames := p.within_elements o ho x hx hbinders
  by_cases hk : x = k
  · exact .inl hk
  · exact .inr (mem_freeNames_quant.mpr ⟨.inr hp, hk⟩)

/-- A quantifier that is not claimed is written with the term of its hint in front. -/
theorem lower_of_hint? (h : p.hint? k = some v) {ts : List Trigger} {t : Term}
    (hclaims : Trigger.claims (·.onPredicate (quant .all k c p)) ts = [])
    (ht : (quant .all k c p).lower ts = .ok t) :
    ∃ hint condition inner, v.lower ts = .ok hint ∧ t = .all k (some hint) condition inner := by
  rw [lower_eq, Claim.settle_of_eq_nil ts hclaims] at ht
  obtain ⟨condition, -, ht⟩ := exists_of_bind_eq_ok ht
  obtain ⟨inner, -, ht⟩ := exists_of_bind_eq_ok ht
  simp only [h] at ht
  obtain ⟨hint, hhint, ht⟩ := exists_of_bind_eq_ok ht
  cases ht
  exact ⟨hint, condition, inner, hhint, rfl⟩

/-- The hint of a quantifier over `k` is the first element of the formula that has the index `k` and
is not inside another binder of `k`. Its names are `k`, free names of the quantifier, and names that
it has from a binder on the way to it; all are in scope exactly if the names of the last kind happen
to be free names of the quantifier too. A quantifier that is not claimed is written with the term of
the hint in front. -/
theorem scope_of_hint? (h : p.hint? k = some v) (c : Predicate) :
    ∃ before o after, p.elements = before ++ o :: after ∧ v = o.toVariable ∧
      o.index = .name k ∧ k ∉ o.binders ∧
      (∀ o' ∈ before, o'.index = .name k → k ∈ o'.binders) ∧
      (∀ x ∈ v.freeNames,
        x = k ∨ x ∈ (quant .all k c p).freeNames ∨ x ∈ o.binders ∧ x ∈ o.base.freeNames) ∧
      ((∀ x ∈ v.freeNames, x = k ∨ x ∈ (quant .all k c p).freeNames) ↔
        ∀ x ∈ o.binders, x ∈ o.base.freeNames → x ∈ (quant .all k c p).freeNames) ∧
      ∀ ts t, Trigger.claims (·.onPredicate (quant .all k c p)) ts = [] →
        (quant .all k c p).lower ts = .ok t →
        ∃ hint condition inner, v.lower ts = .ok hint ∧ t = .all k (some hint) condition inner := by
  have hsearch := h
  rw [hint?_eq, firstHint?, Option.map_eq_some_iff] at hsearch
  obtain ⟨o, hfind, rfl⟩ := hsearch
  obtain ⟨hfits, before, after, helements, hbefore⟩ := List.find?_eq_some_iff_append.mp hfind
  obtain ⟨hindex, hbinders⟩ := isHint_iff.mp hfits
  have hmem : o ∈ p.elements := List.mem_of_find?_eq_some hfind
  have hnames : ∀ x, x ∈ o.toVariable.freeNames ↔ x ∈ o.base.freeNames ∨ x = k := by
    intro x
    rw [toVariable, hindex, Variable.freeNames_select, List.mem_append, IntExpr.freeNames_name,
      List.mem_singleton]
  refine ⟨before, o, after, helements, rfl, hindex, hbinders, ?_, ?_, ?_,
    fun ts t => lower_of_hint? h⟩
  · intro o' ho' hindex'
    have hmisfit := hbefore o' ho'
    by_contra hfree
    rw [isHint_iff.mpr ⟨hindex', hfree⟩] at hmisfit
    cases hmisfit
  · intro x hx
    by_cases hbound : x ∈ o.binders
    · exact ((hnames x).mp hx).symm.imp_right fun hx => .inr ⟨hbound, hx⟩
    · exact (mem_freeNames_of_element hmem hx hbound).imp_right .inl
  · constructor
    · intro hall x hbound hx
      -- `k` itself is not bound on the way
      have hk : x ≠ k := fun hk => hbinders (hk ▸ hbound)
      exact (hall x ((hnames x).mpr (.inl hx))).resolve_left hk
    · intro hall x hx
      by_cases hbound : x ∈ o.binders
      · exact ((hnames x).mp hx).symm.imp_right (hall x hbound)
      · exact mem_freeNames_of_element hmem hx hbound

end Predicate

/-- The formula `(E j : 0 ≤ j : a[k] < b[j])`: some element of `b` exceeds `a[k]`. -/
def exceeded : Predicate :=
  .quant .some "j" (.comp .le (.const 0) (.name "j"))
    (.comp .lt (.var (.select (.name "a") (.name "k"))) (.var (.select (.name "b") (.name "j"))))

/-- The hint is inside the binder of `j` and does without `j`, so all of its names are in scope. -/
theorem exceeded_scope :
    exceeded.hint? "k" = some (.select (.name "a") (.name "k")) ∧
      ∀ x ∈ (Variable.select (.name "a") (.name "k")).freeNames,
        x = "k" ∨ x ∈ (Predicate.quant .all "k" (.const true) exceeded).freeNames := by
  have hhint : exceeded.hint? "k" = some (.select (.name "a") (.name "k")) := by cbv
  refine ⟨hhint, ?_⟩
  obtain ⟨before, o, after, -, hv, -, -, -, -, hiff, -⟩ :=
    Predicate.scope_of_hint? hhint (.const true)
  refine hiff.mpr fun x _ hx => ?_
  -- the map of the element is `a`, which is free
  injection hv with hbase
  rw [← hbase, Variable.freeNames, Variable.names, List.mem_singleton] at hx
  rw [hx]
  decide

/-- The formula `(E j : 0 ≤ j : a[j][k] > 0)`: column `k` has a positive cell. -/
def positiveColumn : Predicate :=
  .quant .some "j" (.comp .le (.const 0) (.name "j"))
    (.comp .gt (.var (.select (.select (.name "a") (.name "j")) (.name "k"))) (.const 0))

/-- The only element with the index `k` has `j` from the inner binder, and `j` is written in front
of the formula, where it is not bound. -/
theorem positiveColumn_escapes :
    (∃ v, positiveColumn.hint? "k" = some v ∧ "j" ∈ v.freeNames ∧ "j" ≠ "k" ∧
      "j" ∉ (Predicate.quant .all "k" (.const true) positiveColumn).freeNames) ∧
    ((Predicate.quant .all "k" (.const true) positiveColumn).lower []).map Term.render =
      .ok ("(FORALL (k) (PATS (select (select a j) k)) (IMPLIES TRUE " ++
        "(EXISTS (j) (AND (<= 0 j) (> (select (select a j) k) 0)))))") := by
  refine ⟨⟨.select (.select (.name "a") (.name "j")) (.name "k"), by cbv, ?_⟩, by cbv⟩
  decide

end GuardedCommand
