import GuardedCommand.Proofs.FreshNames
import GuardedCommand.Proofs.Node

/-! # Rules of substitution

What a substitution makes of a node, said without a supply of fresh names: one rule for each
constructor, and at a binder any new name that is not in use. Whatever is shown of the rules holds
of every substitution that succeeds.

* `Substitution.replacement`: what a name becomes.
* `Substitution.under_cases`, `Substitution.under_fresh`: what happens to a substitution and to the
  supply at a binder.
* `Substitution.Below`: the bound variable and the substitution below a binder.
* `Node.Becomes`: the rules.
* `Node.becomes_of_subst`: a successful substitution follows the rules.
-/

namespace GuardedCommand

/-- A composed computation succeeds if its parts do, one after the other. -/
theorem exists_of_bind_eq_ok {ε α β : Type} {x : Except ε α} {f : α → Except ε β} {b : β}
    (h : x >>= f = .ok b) : ∃ a, x = .ok a ∧ f a = .ok b := by
  cases x with
  | error e => cases h
  | ok a => exact ⟨a, rfl, h⟩

/-- A mapped computation succeeds if the computation does. -/
theorem exists_of_map_eq_ok {ε α β : Type} {x : Except ε α} {f : α → β} {b : β}
    (h : f <$> x = .ok b) : ∃ a, x = .ok a ∧ f a = b := by
  cases x with
  | error e => cases h
  | ok a => exact ⟨a, rfl, Except.ok.inj h⟩

/-- Renaming the error of a computation does not make it succeed. -/
theorem eq_ok_of_mapError_eq_ok {ε ε' α : Type} {x : Except ε α} {f : ε → ε'} {a : α}
    (h : x.mapError f = .ok a) : x = .ok a := by
  cases x with
  | error e => cases h
  | ok b =>
    cases h
    rfl

/-- A computation with an optional result has this result. -/
theorem eq_ok_of_toOption {ε α : Type} {x : Except ε α} {a : α} (h : x.toOption = some a) :
    x = .ok a := by
  cases x with
  | error e => cases h
  | ok b =>
    cases h
    rfl

/-! ## Substitutions and binders -/

namespace Substitution

variable {σ τ : Substitution} {x k : String} {e : Expr}

/-- What a name becomes: its replacement, or else the name itself. -/
def replacement (σ : Substitution) (x : String) : Expr :=
  (σ.lookup x).getD (.map (.name x))

/-- The replacement of a replaced name. -/
theorem replacement_of_lookup (h : σ.lookup x = some e) : σ.replacement x = e := by
  rw [replacement, h, Option.getD_some]

/-- A name that is not replaced is replaced by itself. -/
theorem replacement_of_lookup_none (h : σ.lookup x = none) :
    σ.replacement x = .map (.name x) := by
  rw [replacement, h, Option.getD_none]

/-- A replacement that is found is one of the pairs. -/
theorem mem_pairs_of_lookup (h : σ.lookup x = some e) : (x, e) ∈ σ.pairs := by
  obtain ⟨l₁, l₂, hpairs, -⟩ := List.lookup_eq_some_iff.mp h
  rw [hpairs]
  exact List.mem_append_right _ List.mem_cons_self

/-- Every name of a replacement is a name of the substitution. -/
theorem allNames_subset_names (h : σ.lookup x = some e) : e.allNames ⊆ σ.names := by
  intro y hy
  exact List.mem_flatMap.mpr ⟨(x, e), mem_pairs_of_lookup h, List.mem_cons_of_mem _ hy⟩

/-- Nothing but the hidden name is lost. -/
theorem lookup_hide_of_ne (h : x ≠ k) : (σ.hide k).lookup x = σ.lookup x := by
  obtain ⟨pairs⟩ := σ
  simp only [lookup, hide]
  induction pairs with
  | nil => rfl
  | cons pair pairs ih =>
    obtain ⟨y, d⟩ := pair
    by_cases hy : y = k
    · subst hy
      rw [List.filter_cons_of_neg (by simp), ih, List.lookup_cons, beq_false_of_ne h]
    · rw [List.filter_cons_of_pos (by simpa using hy), List.lookup_cons, List.lookup_cons, ih]

/-- A hidden name has no replacement. -/
theorem lookup_hide_self : (σ.hide k).lookup k = none := by
  rw [lookup, List.lookup_eq_none_iff]
  intro pair hpair
  have hne := (List.mem_filter.mp hpair).2
  exact bne_iff_ne.mpr (Ne.symm (by simpa using hne))

/-- Hiding a name adds no names. -/
theorem names_hide_subset : (σ.hide k).names ⊆ σ.names := by
  intro y hy
  obtain ⟨pair, hpair, hy⟩ := List.mem_flatMap.mp hy
  exact List.mem_flatMap.mpr ⟨pair, List.mem_of_mem_filter hpair, hy⟩

/-- A replacement that is left mentions `k` only if the substitution does. -/
theorem notMem_freeNames_of_not_mentions (hm : ¬ (σ.mentions k) = true) (h : σ.lookup x = some e) :
    k ∉ e.freeNames := by
  intro hk
  refine hm (List.any_eq_true.mpr ⟨(x, e), mem_pairs_of_lookup h, ?_⟩)
  simpa using hk

/-- A renamed variable has the new name as its replacement, and all other names have theirs. -/
theorem lookup_rename (x' : String) :
    ((σ.hide k).rename k x').lookup x = if x = k then some (.name x') else σ.lookup x := by
  have happ : ((σ.hide k).rename k x').lookup x =
      ((σ.hide k).lookup x).or ([(k, Expr.name x')].lookup x) := by
    simp only [lookup, rename, List.lookup_append]
  rw [happ]
  by_cases h : x = k
  · subst h
    rw [lookup_hide_self, if_pos rfl]
    simp
  · rw [lookup_hide_of_ne h, if_neg h]
    simp [List.lookup_cons, beq_false_of_ne h]

/-- Renaming a variable adds only the old and the new name. -/
theorem names_rename_subset (x' : String) :
    ((σ.hide k).rename k x').names ⊆ k :: x' :: σ.names := by
  intro y hy
  simp only [names, rename, List.flatMap_append, List.mem_append] at hy
  rcases hy with hy | hy
  · exact List.mem_cons_of_mem _ (List.mem_cons_of_mem _ (names_hide_subset hy))
  · have hpair : y = k ∨ y = x' := by
      simpa [Expr.name, Expr.allNames, Expr.names, IntExpr.name, IntExpr.names,
        Variable.names] using hy
    rcases hpair with rfl | rfl
    · exact List.mem_cons_self
    · exact List.mem_cons_of_mem _ List.mem_cons_self

/-- Where nothing is left to replace below a binder, no other name is replaced. -/
theorem lookup_of_under_none {fresh : FreshNames} (h : σ.under k fresh = none) (hx : x ≠ k) :
    σ.lookup x = none := by
  have hempty : (σ.hide k).pairs = [] := by
    simp only [under] at h
    split at h
    · next hnil => exact List.isEmpty_iff.mp hnil
    · split at h <;> cases h
  rw [← lookup_hide_of_ne hx, lookup, hempty]
  rfl

/-- Where something is left, the bound variable is renamed if a replacement mentions it. -/
theorem under_cases {fresh fresh' : FreshNames} {k' : String}
    (h : σ.under k fresh = some (k', τ, fresh')) :
    (k' = fresh.next.1 ∧ τ = (σ.hide k).rename k fresh.next.1 ∧ fresh' = fresh.next.2) ∨
      (¬ ((σ.hide k).mentions k) = true ∧ k' = k ∧ τ = σ.hide k ∧ fresh' = fresh) := by
  simp only [under] at h
  split at h
  · cases h
  split at h
  · cases h
    exact .inl ⟨rfl, rfl, rfl⟩
  · next hm =>
    cases h
    exact .inr ⟨hm, rfl, rfl, rfl⟩

/-- Below a binder the supply avoids all names that it avoided before, and those that are new in the
substitution. -/
theorem under_fresh {fresh fresh' : FreshNames} {names : List String} {k' : String}
    (hfresh : fresh.Avoids names) (hσ : σ.names ⊆ names) (hk : k ∈ names)
    (h : σ.under k fresh = some (k', τ, fresh')) :
    fresh'.Extends fresh ∧
      ∃ names', names ⊆ names' ∧ fresh'.Avoids names' ∧ τ.names ⊆ names' := by
  rcases under_cases h with ⟨rfl, rfl, rfl⟩ | ⟨-, rfl, rfl, rfl⟩
  · refine ⟨fresh.extends_next, _, List.subset_cons_self _ _, hfresh.next, ?_⟩
    intro y hy
    rcases List.mem_cons.mp (names_rename_subset _ hy) with rfl | hy
    · exact List.mem_cons_of_mem _ hk
    · rcases List.mem_cons.mp hy with rfl | hy
      · exact List.mem_cons_self
      · exact List.mem_cons_of_mem _ (hσ hy)
  · exact ⟨.refl fresh', names, List.Subset.refl _, hfresh, fun y hy => hσ (names_hide_subset hy)⟩

/-- The bound variable and the substitution below a binder of `k` whose parts have the names
`parts`, where `σ` is the substitution around it. -/
inductive Below (σ : Substitution) (k : String) (parts : List String) :
    String → Substitution → Prop
  /-- The bound variable is kept, as no replacement that is left mentions it. -/
  | kept (h : ¬ ((σ.hide k).mentions k) = true) : Below σ k parts k (σ.hide k)
  /-- The bound variable gets a name that is not in use. -/
  | renamed {x : String} (hparts : x ∉ parts) (hσ : x ∉ σ.names) :
    Below σ k parts x ((σ.hide k).rename k x)

/-- The substitution that is made for the body of a binder captures no name. -/
theorem below_of_under {fresh fresh' : FreshNames} {k' : String} {names parts : List String}
    (hfresh : fresh.Avoids names) (hσ : σ.names ⊆ names) (hparts : parts ⊆ names)
    (h : σ.under k fresh = some (k', τ, fresh')) : σ.Below k parts k' τ := by
  rcases under_cases h with ⟨rfl, rfl, rfl⟩ | ⟨hm, rfl, rfl, rfl⟩
  · exact .renamed (fun hx => hfresh.next_notMem (hparts hx)) fun hx => hfresh.next_notMem (hσ hx)
  · exact .kept hm

end Substitution

/-! ## The rules -/

/-- `n.Becomes σ n'` says that the substitution `σ` makes `n'` of the node `n`. -/
inductive Node.Becomes : Substitution → Node → Node → Prop
  /-- A name is replaced. -/
  | name {σ : Substitution} (x : String) : Becomes σ (.var (.name x)) (.expr (σ.replacement x))
  /-- An element is selected from what has become of a map. -/
  | select {σ : Substitution} {b v : Variable} {b' : Expr} {i i' : IntExpr}
    (hb : Becomes σ (.var b) (.expr b')) (hv : b'.toMap = .ok v)
    (hi : Becomes σ (.int i) (.int i')) :
    Becomes σ (.var (.select b i)) (.expr (.map (.select v i')))
  /-- An element is stored in what has become of a map. -/
  | store {σ : Substitution} {b v : Variable} {b' e e' : Expr} {i i' : IntExpr}
    (hb : Becomes σ (.var b) (.expr b')) (hv : b'.toMap = .ok v)
    (hi : Becomes σ (.int i) (.int i')) (he : Becomes σ (.expr e) (.expr e')) :
    Becomes σ (.var (.store b i e)) (.expr (.map (.store v i' e')))
  /-- A variable used as a map becomes whatever the variable becomes. -/
  | map {σ : Substitution} {v : Variable} {e : Expr} (hv : Becomes σ (.var v) (.expr e)) :
    Becomes σ (.expr (.map v)) (.expr e)
  /-- A name as an argument is replaced by an expression of either kind. -/
  | argument {σ : Substitution} (x : String) :
    Becomes σ (.expr (.int (.var (.name x)))) (.expr (σ.replacement x).toArgument)
  /-- Any other integer expression stays one. -/
  | int {σ : Substitution} {e e' : IntExpr} (hname : e.asName = none)
    (he : Becomes σ (.int e) (.int e')) : Becomes σ (.expr (.int e)) (.expr (.int e'))
  /-- A literal has no names. -/
  | const {σ : Substitution} (c : Int) : Becomes σ (.int (.const c)) (.int (.const c))
  /-- A variable used as an integer becomes an integer. -/
  | var {σ : Substitution} {v : Variable} {e : Expr} {d : IntExpr}
    (hv : Becomes σ (.var v) (.expr e)) (he : e.toInt = .ok d) :
    Becomes σ (.int (.var v)) (.int d)
  /-- The operand of a negation. -/
  | negate {σ : Substitution} {e e' : IntExpr} (he : Becomes σ (.int e) (.int e')) :
    Becomes σ (.int (.negate e)) (.int (.negate e'))
  /-- Both operands of an operation. -/
  | arith {σ : Substitution} {op : ArithOp} {l l' r r' : IntExpr}
    (hl : Becomes σ (.int l) (.int l')) (hr : Becomes σ (.int r) (.int r')) :
    Becomes σ (.int (.binary op l r)) (.int (.binary op l' r'))
  /-- All arguments of a function. -/
  | function {σ : Substitution} {f : String} {args args' : List Expr}
    (hlength : args.length = args'.length)
    (hargs : ∀ a ∈ args.zip args', Becomes σ (.expr a.1) (.expr a.2)) :
    Becomes σ (.int (.call f args)) (.int (.call f args'))
  /-- Both parts of an aggregate, below its binder. -/
  | fold {σ τ : Substitution} {op : Aggregate} {k k' : String} {c c' : Predicate}
    {e e' : IntExpr} (hk : σ.Below k (c.allNames ++ e.allNames) k' τ)
    (hc : Becomes τ (.predicate c) (.predicate c')) (he : Becomes τ (.int e) (.int e')) :
    Becomes σ (.int (.fold op k c e)) (.int (.fold op k' c' e'))
  /-- Both parts of a count, below its binder. -/
  | count {σ τ : Substitution} {k k' : String} {c c' p p' : Predicate}
    (hk : σ.Below k (c.allNames ++ p.allNames) k' τ)
    (hc : Becomes τ (.predicate c) (.predicate c'))
    (hp : Becomes τ (.predicate p) (.predicate p')) :
    Becomes σ (.int (.count k c p)) (.int (.count k' c' p'))
  /-- An integer expression is left alone if none of its names is replaced. -/
  | intSame {σ : Substitution} {e : IntExpr} (h : ∀ x ∈ e.freeNames, σ.lookup x = none) :
    Becomes σ (.int e) (.int e)
  /-- A truth value has no names. -/
  | truth {σ : Substitution} (b : Bool) :
    Becomes σ (.predicate (.const b)) (.predicate (.const b))
  /-- The operand of a negation. -/
  | not {σ : Substitution} {p p' : Predicate} (hp : Becomes σ (.predicate p) (.predicate p')) :
    Becomes σ (.predicate (.not p)) (.predicate (.not p'))
  /-- Both operands of a connective. -/
  | connective {σ : Substitution} {op : BoolOp} {l l' r r' : Predicate}
    (hl : Becomes σ (.predicate l) (.predicate l'))
    (hr : Becomes σ (.predicate r) (.predicate r')) :
    Becomes σ (.predicate (.binary op l r)) (.predicate (.binary op l' r'))
  /-- Both sides of a comparison. -/
  | comp {σ : Substitution} {op : CompOp} {l l' r r' : IntExpr}
    (hl : Becomes σ (.int l) (.int l')) (hr : Becomes σ (.int r) (.int r')) :
    Becomes σ (.predicate (.comp op l r)) (.predicate (.comp op l' r'))
  /-- All arguments of a relation. -/
  | relation {σ : Substitution} {f : String} {args args' : List Expr}
    (hlength : args.length = args'.length)
    (hargs : ∀ a ∈ args.zip args', Becomes σ (.expr a.1) (.expr a.2)) :
    Becomes σ (.predicate (.call f args)) (.predicate (.call f args'))
  /-- What has become of two maps, and the number of elements. -/
  | perm {σ : Substitution} {a b v w : Variable} {a' b' : Expr} {n n' : IntExpr}
    (ha : Becomes σ (.var a) (.expr a')) (hv : a'.toMap = .ok v)
    (hb : Becomes σ (.var b) (.expr b')) (hw : b'.toMap = .ok w)
    (hn : Becomes σ (.int n) (.int n')) :
    Becomes σ (.predicate (.perm a b n)) (.predicate (.perm v w n'))
  /-- Both parts of a quantifier, below its binder. -/
  | quant {σ τ : Substitution} {q : Quantifier} {k k' : String} {c c' p p' : Predicate}
    (hk : σ.Below k (c.allNames ++ p.allNames) k' τ)
    (hc : Becomes τ (.predicate c) (.predicate c'))
    (hp : Becomes τ (.predicate p) (.predicate p')) :
    Becomes σ (.predicate (.quant q k c p)) (.predicate (.quant q k' c' p'))
  /-- A predicate is left alone if none of its names is replaced. -/
  | predicateSame {σ : Substitution} {p : Predicate} (h : ∀ x ∈ p.freeNames, σ.lookup x = none) :
    Becomes σ (.predicate p) (.predicate p)

/-! ## Substitutions follow the rules

The supply avoids a list of names that holds every name of the formula and of the substitution. At a
binder the list grows by the name that was taken. -/

/-- A binder mentions its variable too, among all names. -/
@[simp] theorem Mention.binder_all (k : String) (xs : List String) :
    Mention.all.binder k xs = k :: xs := rfl

/-- What can be taken for a name is this name. -/
theorem IntExpr.eq_name_of_asName {e : IntExpr} {x : String} (h : e.asName = some x) :
    e = .var (.name x) := by
  unfold IntExpr.asName Variable.asName at h
  split at h
  · split at h <;> simp_all
  · cases h

/-- An integer expression that is no bare name is treated alike as an argument and elsewhere. -/
theorem Expr.substIn_int {σ : Substitution} {fresh : FreshNames} {e : IntExpr}
    (h : e.asName = none) :
    Expr.substIn σ (.int e) fresh =
      e.substIn σ fresh >>= fun (e', fresh) => .ok (.int e', fresh) := by
  cases e with
  | var v =>
    cases v with
    | name x => simp [IntExpr.asName, Variable.asName] at h
    | _ => simp only [Expr.substIn]
  | _ => simp only [Expr.substIn]

mutual

/-- The result of substituting in a variable follows the rules. -/
theorem Variable.becomes_of_substIn :
    ∀ (v : Variable) {σ : Substitution} {fresh fresh' : FreshNames} {names : List String}
      {e : Expr}, fresh.Avoids names → v.allNames ⊆ names → σ.names ⊆ names →
      v.substIn σ fresh = .ok (e, fresh') →
      fresh'.Extends fresh ∧ Node.Becomes σ (.var v) (.expr e)
  | .name x, σ, fresh, fresh', names, e, _, _, _, h => by
    simp only [Variable.substIn] at h
    cases h
    exact ⟨.refl fresh, .name x⟩
  | .select b i, σ, fresh, fresh', names, e, hf, hv, hσ, h => by
    simp only [Variable.allNames, Variable.names, List.append_subset] at hv
    simp only [Variable.substIn] at h
    obtain ⟨⟨b', f₁⟩, hb, h⟩ := exists_of_bind_eq_ok h
    obtain ⟨b'', hmap, h⟩ := exists_of_bind_eq_ok h
    obtain ⟨⟨i', f₂⟩, hi, h⟩ := exists_of_bind_eq_ok h
    cases h
    -- The supply for the index is what the base leaves of it, and still avoids all names.
    obtain ⟨hext₁, hb⟩ := b.becomes_of_substIn hf hv.1 hσ hb
    obtain ⟨hext₂, hi⟩ := i.becomes_of_substIn (hf.of_extends hext₁) hv.2 hσ hi
    exact ⟨hext₂.trans hext₁, .select hb hmap hi⟩
  | .store b i d, σ, fresh, fresh', names, e, hf, hv, hσ, h => by
    simp only [Variable.allNames, Variable.names, List.append_subset] at hv
    simp only [Variable.substIn] at h
    obtain ⟨⟨b', f₁⟩, hb, h⟩ := exists_of_bind_eq_ok h
    obtain ⟨b'', hmap, h⟩ := exists_of_bind_eq_ok h
    obtain ⟨⟨i', f₂⟩, hi, h⟩ := exists_of_bind_eq_ok h
    obtain ⟨⟨d', f₃⟩, hd, h⟩ := exists_of_bind_eq_ok h
    cases h
    obtain ⟨hext₁, hb⟩ := b.becomes_of_substIn hf hv.1.1 hσ hb
    obtain ⟨hext₂, hi⟩ := i.becomes_of_substIn (hf.of_extends hext₁) hv.1.2 hσ hi
    have hext := hext₂.trans hext₁
    obtain ⟨hext₃, hd⟩ := d.becomes_of_substIn (hf.of_extends hext) hv.2 hσ hd
    exact ⟨hext₃.trans hext, .store hb hmap hi hd⟩

/-- The result of substituting in an expression follows the rules. -/
theorem Expr.becomes_of_substIn :
    ∀ (e : Expr) {σ : Substitution} {fresh fresh' : FreshNames} {names : List String}
      {e' : Expr}, fresh.Avoids names → e.allNames ⊆ names → σ.names ⊆ names →
      e.substIn σ fresh = .ok (e', fresh') →
      fresh'.Extends fresh ∧ Node.Becomes σ (.expr e) (.expr e')
  | .map v, σ, fresh, fresh', names, e', hf, he, hσ, h => by
    simp only [Expr.substIn] at h
    obtain ⟨hext, hv⟩ := v.becomes_of_substIn hf he hσ h
    exact ⟨hext, .map hv⟩
  | .int e, σ, fresh, fresh', names, e', hf, he, hσ, h => by
    cases hname : e.asName with
    | some x =>
      obtain rfl := IntExpr.eq_name_of_asName hname
      simp only [Expr.substIn] at h
      cases h
      exact ⟨.refl fresh, .argument x⟩
    | none =>
      rw [Expr.substIn_int hname] at h
      obtain ⟨⟨d, f₁⟩, hd, h⟩ := exists_of_bind_eq_ok h
      cases h
      obtain ⟨hext, hd⟩ := e.becomes_of_substIn hf he hσ hd
      exact ⟨hext, .int hname hd⟩

/-- The result of substituting in an integer expression follows the rules. -/
theorem IntExpr.becomes_of_substIn :
    ∀ (e : IntExpr) {σ : Substitution} {fresh fresh' : FreshNames} {names : List String}
      {e' : IntExpr}, fresh.Avoids names → e.allNames ⊆ names → σ.names ⊆ names →
      e.substIn σ fresh = .ok (e', fresh') →
      fresh'.Extends fresh ∧ Node.Becomes σ (.int e) (.int e')
  | .const c, σ, fresh, fresh', names, e', _, _, _, h => by
    simp only [IntExpr.substIn] at h
    cases h
    exact ⟨.refl fresh, .const c⟩
  | .var v, σ, fresh, fresh', names, e', hf, he, hσ, h => by
    simp only [IntExpr.substIn] at h
    obtain ⟨⟨d, f₁⟩, hd, h⟩ := exists_of_bind_eq_ok h
    obtain ⟨d', hint, h⟩ := exists_of_bind_eq_ok h
    cases h
    obtain ⟨hext, hd⟩ := v.becomes_of_substIn hf he hσ hd
    exact ⟨hext, .var hd hint⟩
  | .negate e, σ, fresh, fresh', names, e', hf, he, hσ, h => by
    simp only [IntExpr.substIn] at h
    obtain ⟨⟨d, f₁⟩, hd, h⟩ := exists_of_bind_eq_ok h
    cases h
    obtain ⟨hext, hd⟩ := e.becomes_of_substIn hf he hσ hd
    exact ⟨hext, .negate hd⟩
  | .binary op l r, σ, fresh, fresh', names, e', hf, he, hσ, h => by
    simp only [IntExpr.allNames, IntExpr.names, List.append_subset] at he
    simp only [IntExpr.substIn] at h
    obtain ⟨⟨l', f₁⟩, hl, h⟩ := exists_of_bind_eq_ok h
    obtain ⟨⟨r', f₂⟩, hr, h⟩ := exists_of_bind_eq_ok h
    cases h
    obtain ⟨hext₁, hl⟩ := l.becomes_of_substIn hf he.1 hσ hl
    obtain ⟨hext₂, hr⟩ := r.becomes_of_substIn (hf.of_extends hext₁) he.2 hσ hr
    exact ⟨hext₂.trans hext₁, .arith hl hr⟩
  | .call f args, σ, fresh, fresh', names, e', hf, he, hσ, h => by
    simp only [IntExpr.substIn] at h
    obtain ⟨⟨args', f₁⟩, hargs, h⟩ := exists_of_bind_eq_ok h
    cases h
    obtain ⟨hext, hlength, hargs⟩ := Expr.becomes_of_substAll args hf he hσ hargs
    exact ⟨hext, .function hlength hargs⟩
  | .fold op k c e, σ, fresh, fresh', names, e', hf, he, hσ, h => by
    simp only [IntExpr.allNames, IntExpr.names, Mention.binder_all, List.cons_subset] at he
    have hparts := List.append_subset.mp he.2
    simp only [IntExpr.substIn] at h
    split at h
    · next hu =>
      cases h
      refine ⟨.refl fresh, .intSame fun x hx => ?_⟩
      rw [IntExpr.freeNames, IntExpr.names, Mention.mem_binder_free] at hx
      exact Substitution.lookup_of_under_none hu hx.2
    · next k' τ f₁ hu =>
      obtain ⟨⟨c', f₂⟩, hc, h⟩ := exists_of_bind_eq_ok h
      obtain ⟨⟨d, f₃⟩, hd, h⟩ := exists_of_bind_eq_ok h
      cases h
      -- the rule is about the supply around the binder, the parts about the one below it
      obtain ⟨hext₁, names', hsub, hf', hτ⟩ := Substitution.under_fresh hf hσ he.1 hu
      obtain ⟨hext₂, hc⟩ := c.becomes_of_substIn hf' (List.Subset.trans hparts.1 hsub) hτ hc
      obtain ⟨hext₃, hd⟩ := e.becomes_of_substIn (hf'.of_extends hext₂)
        (List.Subset.trans hparts.2 hsub) hτ hd
      exact ⟨hext₃.trans (hext₂.trans hext₁),
        .fold (Substitution.below_of_under hf hσ he.2 hu) hc hd⟩
  | .count k c p, σ, fresh, fresh', names, e', hf, he, hσ, h => by
    simp only [IntExpr.allNames, IntExpr.names, Mention.binder_all, List.cons_subset] at he
    have hparts := List.append_subset.mp he.2
    simp only [IntExpr.substIn] at h
    split at h
    · next hu =>
      cases h
      refine ⟨.refl fresh, .intSame fun x hx => ?_⟩
      rw [IntExpr.freeNames, IntExpr.names, Mention.mem_binder_free] at hx
      exact Substitution.lookup_of_under_none hu hx.2
    · next k' τ f₁ hu =>
      obtain ⟨⟨c', f₂⟩, hc, h⟩ := exists_of_bind_eq_ok h
      obtain ⟨⟨p', f₃⟩, hp, h⟩ := exists_of_bind_eq_ok h
      cases h
      obtain ⟨hext₁, names', hsub, hf', hτ⟩ := Substitution.under_fresh hf hσ he.1 hu
      obtain ⟨hext₂, hc⟩ := c.becomes_of_substIn hf' (List.Subset.trans hparts.1 hsub) hτ hc
      obtain ⟨hext₃, hp⟩ := p.becomes_of_substIn (hf'.of_extends hext₂)
        (List.Subset.trans hparts.2 hsub) hτ hp
      exact ⟨hext₃.trans (hext₂.trans hext₁),
        .count (Substitution.below_of_under hf hσ he.2 hu) hc hp⟩

/-- The result of substituting in a predicate follows the rules. -/
theorem Predicate.becomes_of_substIn :
    ∀ (p : Predicate) {σ : Substitution} {fresh fresh' : FreshNames} {names : List String}
      {p' : Predicate}, fresh.Avoids names → p.allNames ⊆ names → σ.names ⊆ names →
      p.substIn σ fresh = .ok (p', fresh') →
      fresh'.Extends fresh ∧ Node.Becomes σ (.predicate p) (.predicate p')
  | .const b, σ, fresh, fresh', names, p', _, _, _, h => by
    simp only [Predicate.substIn] at h
    cases h
    exact ⟨.refl fresh, .truth b⟩
  | .not p, σ, fresh, fresh', names, p', hf, hp, hσ, h => by
    simp only [Predicate.substIn] at h
    obtain ⟨⟨q, f₁⟩, hq, h⟩ := exists_of_bind_eq_ok h
    cases h
    obtain ⟨hext, hq⟩ := p.becomes_of_substIn hf hp hσ hq
    exact ⟨hext, .not hq⟩
  | .binary op l r, σ, fresh, fresh', names, p', hf, hp, hσ, h => by
    simp only [Predicate.allNames, Predicate.names, List.append_subset] at hp
    simp only [Predicate.substIn] at h
    obtain ⟨⟨l', f₁⟩, hl, h⟩ := exists_of_bind_eq_ok h
    obtain ⟨⟨r', f₂⟩, hr, h⟩ := exists_of_bind_eq_ok h
    cases h
    obtain ⟨hext₁, hl⟩ := l.becomes_of_substIn hf hp.1 hσ hl
    obtain ⟨hext₂, hr⟩ := r.becomes_of_substIn (hf.of_extends hext₁) hp.2 hσ hr
    exact ⟨hext₂.trans hext₁, .connective hl hr⟩
  | .comp op l r, σ, fresh, fresh', names, p', hf, hp, hσ, h => by
    simp only [Predicate.allNames, Predicate.names, List.append_subset] at hp
    simp only [Predicate.substIn] at h
    obtain ⟨⟨l', f₁⟩, hl, h⟩ := exists_of_bind_eq_ok h
    obtain ⟨⟨r', f₂⟩, hr, h⟩ := exists_of_bind_eq_ok h
    cases h
    obtain ⟨hext₁, hl⟩ := l.becomes_of_substIn hf hp.1 hσ hl
    obtain ⟨hext₂, hr⟩ := r.becomes_of_substIn (hf.of_extends hext₁) hp.2 hσ hr
    exact ⟨hext₂.trans hext₁, .comp hl hr⟩
  | .call f args, σ, fresh, fresh', names, p', hf, hp, hσ, h => by
    simp only [Predicate.substIn] at h
    obtain ⟨⟨args', f₁⟩, hargs, h⟩ := exists_of_bind_eq_ok h
    cases h
    obtain ⟨hext, hlength, hargs⟩ := Expr.becomes_of_substAll args hf hp hσ hargs
    exact ⟨hext, .relation hlength hargs⟩
  | .perm a b n, σ, fresh, fresh', names, p', hf, hp, hσ, h => by
    simp only [Predicate.allNames, Predicate.names, List.append_subset] at hp
    simp only [Predicate.substIn] at h
    obtain ⟨⟨a', f₁⟩, ha, h⟩ := exists_of_bind_eq_ok h
    obtain ⟨a'', hamap, h⟩ := exists_of_bind_eq_ok h
    obtain ⟨⟨b', f₂⟩, hb, h⟩ := exists_of_bind_eq_ok h
    obtain ⟨b'', hbmap, h⟩ := exists_of_bind_eq_ok h
    obtain ⟨⟨n', f₃⟩, hn, h⟩ := exists_of_bind_eq_ok h
    cases h
    obtain ⟨hext₁, ha⟩ := a.becomes_of_substIn hf hp.1.1 hσ ha
    obtain ⟨hext₂, hb⟩ := b.becomes_of_substIn (hf.of_extends hext₁) hp.1.2 hσ hb
    have hext := hext₂.trans hext₁
    obtain ⟨hext₃, hn⟩ := n.becomes_of_substIn (hf.of_extends hext) hp.2 hσ hn
    exact ⟨hext₃.trans hext, .perm ha hamap hb hbmap hn⟩
  | .quant q k c p, σ, fresh, fresh', names, p', hf, hp, hσ, h => by
    simp only [Predicate.allNames, Predicate.names, Mention.binder_all, List.cons_subset] at hp
    have hparts := List.append_subset.mp hp.2
    simp only [Predicate.substIn] at h
    split at h
    · next hu =>
      cases h
      refine ⟨.refl fresh, .predicateSame fun x hx => ?_⟩
      -- Nothing is left to replace below the binder, so no other free name is replaced.
      rw [Predicate.freeNames, Predicate.names, Mention.mem_binder_free] at hx
      exact Substitution.lookup_of_under_none hu hx.2
    · next k' τ f₁ hu =>
      obtain ⟨⟨c', f₂⟩, hc, h⟩ := exists_of_bind_eq_ok h
      obtain ⟨⟨r, f₃⟩, hr, h⟩ := exists_of_bind_eq_ok h
      cases h
      -- Below the binder there are more names, and the rest of the supply avoids these as well.
      obtain ⟨hext₁, names', hsub, hf', hτ⟩ := Substitution.under_fresh hf hσ hp.1 hu
      obtain ⟨hext₂, hc⟩ := c.becomes_of_substIn hf' (List.Subset.trans hparts.1 hsub) hτ hc
      obtain ⟨hext₃, hr⟩ := p.becomes_of_substIn (hf'.of_extends hext₂)
        (List.Subset.trans hparts.2 hsub) hτ hr
      exact ⟨hext₃.trans (hext₂.trans hext₁),
        .quant (Substitution.below_of_under hf hσ hp.2 hu) hc hr⟩

/-- The results of substituting in arguments follow the rules. -/
theorem Expr.becomes_of_substAll :
    ∀ (es : List Expr) {σ : Substitution} {fresh fresh' : FreshNames} {names : List String}
      {es' : List Expr}, fresh.Avoids names → Expr.namesAll .all es ⊆ names → σ.names ⊆ names →
      Expr.substAll σ es fresh = .ok (es', fresh') →
      fresh'.Extends fresh ∧ es.length = es'.length ∧
        ∀ a ∈ es.zip es', Node.Becomes σ (.expr a.1) (.expr a.2)
  | [], σ, fresh, fresh', names, es', _, _, _, h => by
    simp only [Expr.substAll] at h
    cases h
    exact ⟨.refl fresh, rfl, fun a ha => absurd ha List.not_mem_nil⟩
  | e :: es, σ, fresh, fresh', names, es', hf, hes, hσ, h => by
    simp only [Expr.namesAll, List.append_subset] at hes
    simp only [Expr.substAll] at h
    obtain ⟨⟨d, f₁⟩, hd, h⟩ := exists_of_bind_eq_ok h
    obtain ⟨⟨ds, f₂⟩, hds, h⟩ := exists_of_bind_eq_ok h
    cases h
    obtain ⟨hext₁, hd⟩ := e.becomes_of_substIn hf hes.1 hσ hd
    obtain ⟨hext₂, hlength, hds⟩ :=
      Expr.becomes_of_substAll es (hf.of_extends hext₁) hes.2 hσ hds
    refine ⟨hext₂.trans hext₁, congrArg (· + 1) hlength, ?_⟩
    exact List.forall_mem_cons.mpr ⟨hd, hds⟩

end

/-! ## The supply of a substitution

A substitution starts with a supply that avoids the names of the formula and its own. -/

section Start

variable {σ : Substitution}

/-- A substituted predicate follows the rules. -/
theorem Predicate.becomes_of_subst {p p' : Predicate} (h : p.subst σ = .ok p') :
    Node.Becomes σ (.predicate p) (.predicate p') := by
  obtain ⟨⟨q, fresh⟩, hin, rfl⟩ := exists_of_map_eq_ok h
  exact (p.becomes_of_substIn (FreshNames.avoids_avoiding _) (List.subset_append_left _ _)
    (List.subset_append_right _ _) hin).2

/-- A substituted integer expression follows the rules. -/
theorem IntExpr.becomes_of_subst {e e' : IntExpr} (h : e.subst σ = .ok e') :
    Node.Becomes σ (.int e) (.int e') := by
  obtain ⟨⟨d, fresh⟩, hin, rfl⟩ := exists_of_map_eq_ok h
  exact (e.becomes_of_substIn (FreshNames.avoids_avoiding _) (List.subset_append_left _ _)
    (List.subset_append_right _ _) hin).2

/-- A substituted variable follows the rules. -/
theorem Variable.becomes_of_subst {v : Variable} {e' : Expr} (h : v.subst σ = .ok e') :
    Node.Becomes σ (.var v) (.expr e') := by
  obtain ⟨⟨d, fresh⟩, hin, rfl⟩ := exists_of_map_eq_ok h
  exact (v.becomes_of_substIn (FreshNames.avoids_avoiding _) (List.subset_append_left _ _)
    (List.subset_append_right _ _) hin).2

/-- A substituted expression follows the rules. -/
theorem Expr.becomes_of_subst {e e' : Expr} (h : e.subst σ = .ok e') :
    Node.Becomes σ (.expr e) (.expr e') := by
  obtain ⟨⟨d, fresh⟩, hin, rfl⟩ := exists_of_map_eq_ok h
  exact (e.becomes_of_substIn (FreshNames.avoids_avoiding _) (List.subset_append_left _ _)
    (List.subset_append_right _ _) hin).2

end Start

/-- A substitution that succeeds follows the rules. -/
theorem Node.becomes_of_subst {σ : Substitution} {n n' : Node} (h : n.subst σ = .ok n') :
    n.Becomes σ n' := by
  cases n with
  | predicate p =>
    obtain ⟨p', hp, rfl⟩ := exists_of_map_eq_ok h
    exact Predicate.becomes_of_subst hp
  | int e =>
    obtain ⟨e', he, rfl⟩ := exists_of_map_eq_ok h
    exact IntExpr.becomes_of_subst he
  | var v =>
    obtain ⟨e', hv, rfl⟩ := exists_of_map_eq_ok h
    exact Variable.becomes_of_subst hv
  | expr e =>
    obtain ⟨e', he, rfl⟩ := exists_of_map_eq_ok h
    exact Expr.becomes_of_subst he

end GuardedCommand
