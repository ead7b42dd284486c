import GuardedCommand.Proofs.Capture
import GuardedCommand.Proofs.NormalForm

/-! # Bound variables

Where the bound variables of a formula come from. A substitution keeps those of the formula and of
its replacements, and renames some of them to names from its supply; nothing else becomes a bound
variable. So a property of names that the supply has passes from the bound variables of what goes
into a substitution to those of what comes out of it.

* `Predicate.Binds` and its companions: all bound variables have a property.
* `Predicate.binds_of_allNames`, `Predicate.free_or_of_allNames`: bound variables among all names.
* `FreshNames.Supplies`: all names of a supply have the property.
* `Predicate.binds_of_subst`: the bound variables after a substitution.
-/

namespace GuardedCommand

section Binds

variable (K : String → Prop)

mutual

/-- All bound variables in the variable satisfy `K`. -/
def Variable.Binds : Variable → Prop
  | .name _ => True
  | .select b i => b.Binds ∧ i.Binds
  | .store b i e => b.Binds ∧ i.Binds ∧ e.Binds

/-- All bound variables in the expression satisfy `K`. -/
def Expr.Binds : Expr → Prop
  | .map v => v.Binds
  | .int e => e.Binds

/-- All bound variables in the integer expression satisfy `K`. -/
def IntExpr.Binds : IntExpr → Prop
  | .const _ => True
  | .var v => v.Binds
  | .negate e => e.Binds
  | .binary _ l r => l.Binds ∧ r.Binds
  | .call _ args => Expr.BindsAll args
  | .fold _ k c e => K k ∧ c.Binds ∧ e.Binds
  | .count k c p => K k ∧ c.Binds ∧ p.Binds

/-- All bound variables in the predicate satisfy `K`. -/
def Predicate.Binds : Predicate → Prop
  | .const _ => True
  | .not p => p.Binds
  | .binary _ l r => l.Binds ∧ r.Binds
  | .comp _ l r => l.Binds ∧ r.Binds
  | .call _ args => Expr.BindsAll args
  | .perm a b n => a.Binds ∧ b.Binds ∧ n.Binds
  | .quant _ k c p => K k ∧ c.Binds ∧ p.Binds

/-- All bound variables in the arguments satisfy `K`. -/
def Expr.BindsAll : List Expr → Prop
  | [] => True
  | e :: es => e.Binds ∧ Expr.BindsAll es

end

end Binds

variable {K : String → Prop} {x : String}

/-! ## Bound variables among all names -/

mutual

/-- A variable binds only names that it mentions. -/
theorem Variable.binds_of_allNames : ∀ v : Variable, (∀ x ∈ v.allNames, K x) → v.Binds K
  | .name _, _ => by simp only [Variable.Binds]
  | .select b i, h => by
    simp only [Variable.allNames, Variable.names, List.forall_mem_append] at h
    simp only [Variable.Binds]
    exact ⟨b.binds_of_allNames h.1, i.binds_of_allNames h.2⟩
  | .store b i e, h => by
    simp only [Variable.allNames, Variable.names, List.forall_mem_append] at h
    simp only [Variable.Binds]
    exact ⟨b.binds_of_allNames h.1.1, i.binds_of_allNames h.1.2, e.binds_of_allNames h.2⟩

/-- An expression binds only names that it mentions. -/
theorem Expr.binds_of_allNames : ∀ e : Expr, (∀ x ∈ e.allNames, K x) → e.Binds K
  | .map v, h => by
    simp only [Expr.Binds]
    exact v.binds_of_allNames h
  | .int e, h => by
    simp only [Expr.Binds]
    exact e.binds_of_allNames h

/-- An integer expression binds only names that it mentions. -/
theorem IntExpr.binds_of_allNames : ∀ e : IntExpr, (∀ x ∈ e.allNames, K x) → e.Binds K
  | .const _, _ => by simp only [IntExpr.Binds]
  | .var v, h => by
    simp only [IntExpr.Binds]
    exact v.binds_of_allNames h
  | .negate e, h => by
    simp only [IntExpr.Binds]
    exact e.binds_of_allNames h
  | .binary _ l r, h => by
    simp only [IntExpr.allNames, IntExpr.names, List.forall_mem_append] at h
    simp only [IntExpr.Binds]
    exact ⟨l.binds_of_allNames h.1, r.binds_of_allNames h.2⟩
  | .call _ args, h => by
    simp only [IntExpr.Binds]
    exact Expr.bindsAll_of_namesAll args h
  | .fold _ k c e, h => by
    simp only [IntExpr.allNames, IntExpr.names, Mention.binder_all, List.forall_mem_cons,
      List.forall_mem_append] at h
    simp only [IntExpr.Binds]
    exact ⟨h.1, c.binds_of_allNames h.2.1, e.binds_of_allNames h.2.2⟩
  | .count k c p, h => by
    simp only [IntExpr.allNames, IntExpr.names, Mention.binder_all, List.forall_mem_cons,
      List.forall_mem_append] at h
    simp only [IntExpr.Binds]
    exact ⟨h.1, c.binds_of_allNames h.2.1, p.binds_of_allNames h.2.2⟩

/-- A predicate binds only names that it mentions. -/
theorem Predicate.binds_of_allNames : ∀ p : Predicate, (∀ x ∈ p.allNames, K x) → p.Binds K
  | .const _, _ => by simp only [Predicate.Binds]
  | .not p, h => by
    simp only [Predicate.Binds]
    exact p.binds_of_allNames h
  | .binary _ l r, h => by
    simp only [Predicate.allNames, Predicate.names, List.forall_mem_append] at h
    simp only [Predicate.Binds]
    exact ⟨l.binds_of_allNames h.1, r.binds_of_allNames h.2⟩
  | .comp _ l r, h => by
    simp only [Predicate.allNames, Predicate.names, List.forall_mem_append] at h
    simp only [Predicate.Binds]
    exact ⟨l.binds_of_allNames h.1, r.binds_of_allNames h.2⟩
  | .call _ args, h => by
    simp only [Predicate.Binds]
    exact Expr.bindsAll_of_namesAll args h
  | .perm a b n, h => by
    simp only [Predicate.allNames, Predicate.names, List.forall_mem_append] at h
    simp only [Predicate.Binds]
    exact ⟨a.binds_of_allNames h.1.1, b.binds_of_allNames h.1.2, n.binds_of_allNames h.2⟩
  | .quant _ k c p, h => by
    simp only [Predicate.allNames, Predicate.names, Mention.binder_all, List.forall_mem_cons,
      List.forall_mem_append] at h
    simp only [Predicate.Binds]
    exact ⟨h.1, c.binds_of_allNames h.2.1, p.binds_of_allNames h.2.2⟩

/-- Arguments bind only names that they mention. -/
theorem Expr.bindsAll_of_namesAll :
    ∀ es : List Expr, (∀ x ∈ Expr.namesAll .all es, K x) → Expr.BindsAll K es
  | [], _ => by simp only [Expr.BindsAll]
  | e :: es, h => by
    simp only [Expr.namesAll, List.forall_mem_append] at h
    simp only [Expr.BindsAll]
    exact ⟨e.binds_of_allNames h.1, Expr.bindsAll_of_namesAll es h.2⟩

end

/-- A name below a binder is free outside of it or it is the bound variable. -/
theorem Mention.free_or_of_binder {k : String} {xs ys : List String} (hk : K k)
    (h : x ∈ xs → x ∈ ys ∨ K x) (hx : x ∈ Mention.all.binder k xs) :
    x ∈ Mention.free.binder k ys ∨ K x := by
  rw [Mention.binder_all, List.mem_cons] at hx
  rw [Mention.mem_binder_free]
  by_cases hxk : x = k
  · exact .inr (hxk ▸ hk)
  · rcases hx with hx | hx
    · exact absurd hx hxk
    · exact (h hx).imp_left fun hx => ⟨hx, hxk⟩

/-- What is in one of two lists is in one of two others, or satisfies `K`. -/
theorem mem_append_or {xs ys xs' ys' : List String} (hxs : x ∈ xs → x ∈ xs' ∨ K x)
    (hys : x ∈ ys → x ∈ ys' ∨ K x) (hx : x ∈ xs ++ ys) : x ∈ xs' ++ ys' ∨ K x := by
  rw [List.mem_append] at hx ⊢
  rcases hx with hx | hx
  · exact (hxs hx).imp_left .inl
  · exact (hys hx).imp_left .inr

mutual

/-- A name that a variable mentions is free or bound in it. -/
theorem Variable.free_or_of_allNames :
    ∀ v : Variable, v.Binds K → x ∈ v.allNames → x ∈ v.freeNames ∨ K x
  | .name _, _ => .inl
  | .select b i, h => by
    simp only [Variable.Binds] at h
    simp only [Variable.freeNames, Variable.allNames, Variable.names]
    exact mem_append_or (b.free_or_of_allNames h.1) (i.free_or_of_allNames h.2)
  | .store b i e, h => by
    simp only [Variable.Binds] at h
    simp only [Variable.freeNames, Variable.allNames, Variable.names]
    exact mem_append_or (mem_append_or (b.free_or_of_allNames h.1)
      (i.free_or_of_allNames h.2.1)) (e.free_or_of_allNames h.2.2)

/-- A name that an expression mentions is free or bound in it. -/
theorem Expr.free_or_of_allNames :
    ∀ e : Expr, e.Binds K → x ∈ e.allNames → x ∈ e.freeNames ∨ K x
  | .map v, h => by
    simp only [Expr.Binds] at h
    exact v.free_or_of_allNames h
  | .int e, h => by
    simp only [Expr.Binds] at h
    exact e.free_or_of_allNames h

/-- A name that an integer expression mentions is free or bound in it. -/
theorem IntExpr.free_or_of_allNames :
    ∀ e : IntExpr, e.Binds K → x ∈ e.allNames → x ∈ e.freeNames ∨ K x
  | .const _, _ => .inl
  | .var v, h => by
    simp only [IntExpr.Binds] at h
    exact v.free_or_of_allNames h
  | .negate e, h => by
    simp only [IntExpr.Binds] at h
    exact e.free_or_of_allNames h
  | .binary _ l r, h => by
    simp only [IntExpr.Binds] at h
    simp only [IntExpr.freeNames, IntExpr.allNames, IntExpr.names]
    exact mem_append_or (l.free_or_of_allNames h.1) (r.free_or_of_allNames h.2)
  | .call _ args, h => by
    simp only [IntExpr.Binds] at h
    exact Expr.free_or_of_namesAll args h
  | .fold _ k c e, h => by
    simp only [IntExpr.Binds] at h
    exact Mention.free_or_of_binder h.1
      (mem_append_or (c.free_or_of_allNames h.2.1) (e.free_or_of_allNames h.2.2))
  | .count k c p, h => by
    simp only [IntExpr.Binds] at h
    exact Mention.free_or_of_binder h.1
      (mem_append_or (c.free_or_of_allNames h.2.1) (p.free_or_of_allNames h.2.2))

/-- A name that a predicate mentions is free or bound in it. -/
theorem Predicate.free_or_of_allNames :
    ∀ p : Predicate, p.Binds K → x ∈ p.allNames → x ∈ p.freeNames ∨ K x
  | .const _, _ => .inl
  | .not p, h => by
    simp only [Predicate.Binds] at h
    exact p.free_or_of_allNames h
  | .binary _ l r, h => by
    simp only [Predicate.Binds] at h
    simp only [Predicate.freeNames, Predicate.allNames, Predicate.names]
    exact mem_append_or (l.free_or_of_allNames h.1) (r.free_or_of_allNames h.2)
  | .comp _ l r, h => by
    simp only [Predicate.Binds] at h
    simp only [Predicate.freeNames, Predicate.allNames, Predicate.names]
    exact mem_append_or (l.free_or_of_allNames h.1) (r.free_or_of_allNames h.2)
  | .call _ args, h => by
    simp only [Predicate.Binds] at h
    exact Expr.free_or_of_namesAll args h
  | .perm a b n, h => by
    simp only [Predicate.Binds] at h
    simp only [Predicate.freeNames, Predicate.allNames, Predicate.names]
    exact mem_append_or (mem_append_or (a.free_or_of_allNames h.1)
      (b.free_or_of_allNames h.2.1)) (n.free_or_of_allNames h.2.2)
  | .quant _ k c p, h => by
    simp only [Predicate.Binds] at h
    exact Mention.free_or_of_binder h.1
      (mem_append_or (c.free_or_of_allNames h.2.1) (p.free_or_of_allNames h.2.2))

/-- A name that arguments mention is free or bound in one of them. -/
theorem Expr.free_or_of_namesAll :
    ∀ es : List Expr, Expr.BindsAll K es → x ∈ Expr.namesAll .all es →
      x ∈ Expr.namesAll .free es ∨ K x
  | [], _ => .inl
  | e :: es, h => by
    simp only [Expr.BindsAll] at h
    simp only [Expr.namesAll]
    exact mem_append_or (e.free_or_of_allNames h.1) (Expr.free_or_of_namesAll es h.2)

end

/-! ## Bound variables after a substitution -/

/-- All names of the supply satisfy `K`. -/
def FreshNames.Supplies (K : String → Prop) (fresh : FreshNames) : Prop :=
  ∀ i, K (fresh.nameAt i)

namespace Substitution

variable {σ τ : Substitution} {k k' : String} {fresh fresh' : FreshNames}

/-- All bound variables in replacements satisfy `K`. -/
def Binds (K : String → Prop) (σ : Substitution) : Prop :=
  ∀ pair ∈ σ.pairs, pair.2.Binds K

/-- What a name becomes binds no more than the replacements do. -/
theorem Binds.lookup_getD (h : σ.Binds K) (x : String) :
    ((σ.lookup x).getD (.map (.name x))).Binds K := by
  cases hx : σ.lookup x with
  | none => simp only [Option.getD_none, Expr.Binds, Variable.Binds]
  | some e => exact h (x, e) (mem_pairs_of_lookup hx)

/-- A binder keeps its variable or gets one from the supply. -/
theorem Binds.of_under (h : σ.Binds K) (hfresh : fresh.Supplies K) (hk : K k)
    (hunder : σ.under k fresh = some (k', τ, fresh')) :
    fresh'.Supplies K ∧ K k' ∧ τ.Binds K := by
  have hhide : (σ.hide k).Binds K := fun pair hpair => h pair (List.mem_of_mem_filter hpair)
  rcases under_cases hunder with ⟨rfl, rfl, rfl⟩ | ⟨-, rfl, rfl, rfl⟩
  · refine ⟨hfresh, hfresh fresh.used, List.forall_mem_append.mpr ⟨hhide, ?_⟩⟩
    rw [List.forall_mem_singleton]
    simp only [Expr.name, IntExpr.name, Expr.Binds, IntExpr.Binds, Variable.Binds]
  · exact ⟨hfresh, hk, hhide⟩

end Substitution

/-- The variable that an expression consists of binds what the expression binds. -/
theorem Expr.binds_of_asVariable {e : Expr} {v : Variable} (h : e.asVariable = some v)
    (he : e.Binds K) : v.Binds K := by
  unfold Expr.asVariable at h
  split at h
  · cases h
    simpa only [Expr.Binds] using he
  · cases h
    simpa only [Expr.Binds, IntExpr.Binds] using he
  · cases h

/-- An expression used as a map binds what it did. -/
theorem Expr.binds_of_toMap {e : Expr} {v : Variable} (h : e.toMap = .ok v) (he : e.Binds K) :
    v.Binds K := by
  unfold Expr.toMap at h
  split at h
  · next w hw =>
    cases h
    exact Expr.binds_of_asVariable hw he
  · cases h

/-- An expression used as an integer binds what it did. -/
theorem Expr.binds_of_toInt {e : Expr} {d : IntExpr} (h : e.toInt = .ok d) (he : e.Binds K) :
    d.Binds K := by
  unfold Expr.toInt at h
  split at h
  · cases h
    simpa only [Expr.Binds] using he
  · cases h
  · cases h
    simpa only [Expr.Binds, IntExpr.Binds] using he

/-- An expression used as an argument binds what it did. -/
theorem Expr.binds_toArgument {e : Expr} (he : e.Binds K) : e.toArgument.Binds K := by
  unfold Expr.toArgument
  split
  · simp only [Expr.Binds, IntExpr.Binds, Variable.Binds]
  · simpa only [Expr.Binds, IntExpr.Binds] using he
  · exact he

mutual

/-- A substituted variable binds what was bound before, or names from the supply. -/
theorem Variable.binds_of_substIn :
    ∀ (v : Variable) {σ : Substitution} {fresh fresh' : FreshNames} {e : Expr},
      fresh.Supplies K → σ.Binds K → v.Binds K → v.substIn σ fresh = .ok (e, fresh') →
      fresh'.Supplies K ∧ e.Binds K
  | .name x, σ, fresh, fresh', e, hf, hσ, _, h => by
    simp only [Variable.substIn] at h
    cases h
    exact ⟨hf, hσ.lookup_getD x⟩
  | .select b i, σ, fresh, fresh', e, hf, hσ, hv, h => by
    simp only [Variable.Binds] at hv
    simp only [Variable.substIn] at h
    obtain ⟨⟨b', f₁⟩, hb, h⟩ := exists_of_bind_eq_ok h
    obtain ⟨b'', hmap, h⟩ := exists_of_bind_eq_ok h
    obtain ⟨⟨i', f₂⟩, hi, h⟩ := exists_of_bind_eq_ok h
    cases h
    obtain ⟨hf₁, hb⟩ := b.binds_of_substIn hf hσ hv.1 hb
    obtain ⟨hf₂, hi⟩ := i.binds_of_substIn hf₁ hσ hv.2 hi
    simp only [Expr.Binds, Variable.Binds]
    exact ⟨hf₂, Expr.binds_of_toMap hmap hb, hi⟩
  | .store b i d, σ, fresh, fresh', e, hf, hσ, hv, h => by
    simp only [Variable.Binds] at hv
    simp only [Variable.substIn] at h
    obtain ⟨⟨b', f₁⟩, hb, h⟩ := exists_of_bind_eq_ok h
    obtain ⟨b'', hmap, h⟩ := exists_of_bind_eq_ok h
    obtain ⟨⟨i', f₂⟩, hi, h⟩ := exists_of_bind_eq_ok h
    obtain ⟨⟨d', f₃⟩, hd, h⟩ := exists_of_bind_eq_ok h
    cases h
    obtain ⟨hf₁, hb⟩ := b.binds_of_substIn hf hσ hv.1 hb
    obtain ⟨hf₂, hi⟩ := i.binds_of_substIn hf₁ hσ hv.2.1 hi
    obtain ⟨hf₃, hd⟩ := d.binds_of_substIn hf₂ hσ hv.2.2 hd
    simp only [Expr.Binds, Variable.Binds]
    exact ⟨hf₃, Expr.binds_of_toMap hmap hb, hi, hd⟩

/-- A substituted expression binds what was bound before, or names from the supply. -/
theorem Expr.binds_of_substIn :
    ∀ (e : Expr) {σ : Substitution} {fresh fresh' : FreshNames} {e' : Expr},
      fresh.Supplies K → σ.Binds K → e.Binds K → e.substIn σ fresh = .ok (e', fresh') →
      fresh'.Supplies K ∧ e'.Binds K
  | .map v, σ, fresh, fresh', e', hf, hσ, he, h => by
    simp only [Expr.Binds] at he
    simp only [Expr.substIn] at h
    exact v.binds_of_substIn hf hσ he h
  | .int e, σ, fresh, fresh', e', hf, hσ, he, h => by
    simp only [Expr.Binds] at he
    cases hname : e.asName with
    | some x =>
      obtain rfl := IntExpr.eq_name_of_asName hname
      simp only [Expr.substIn] at h
      cases h
      exact ⟨hf, Expr.binds_toArgument (hσ.lookup_getD x)⟩
    | none =>
      rw [Expr.substIn_int hname] at h
      obtain ⟨⟨d, f₁⟩, hd, h⟩ := exists_of_bind_eq_ok h
      cases h
      simp only [Expr.Binds]
      exact e.binds_of_substIn hf hσ he hd

/-- A substituted integer expression binds what was bound before, or names from the supply. -/
theorem IntExpr.binds_of_substIn :
    ∀ (e : IntExpr) {σ : Substitution} {fresh fresh' : FreshNames} {e' : IntExpr},
      fresh.Supplies K → σ.Binds K → e.Binds K → e.substIn σ fresh = .ok (e', fresh') →
      fresh'.Supplies K ∧ e'.Binds K
  | .const c, σ, fresh, fresh', e', hf, _, he, h => by
    simp only [IntExpr.substIn] at h
    cases h
    exact ⟨hf, he⟩
  | .var v, σ, fresh, fresh', e', hf, hσ, he, h => by
    simp only [IntExpr.Binds] at he
    simp only [IntExpr.substIn] at h
    obtain ⟨⟨d, f₁⟩, hd, h⟩ := exists_of_bind_eq_ok h
    obtain ⟨d', hint, h⟩ := exists_of_bind_eq_ok h
    cases h
    obtain ⟨hf₁, hd⟩ := v.binds_of_substIn hf hσ he hd
    exact ⟨hf₁, Expr.binds_of_toInt hint hd⟩
  | .negate e, σ, fresh, fresh', e', hf, hσ, he, h => by
    simp only [IntExpr.Binds] at he
    simp only [IntExpr.substIn] at h
    obtain ⟨⟨d, f₁⟩, hd, h⟩ := exists_of_bind_eq_ok h
    cases h
    simp only [IntExpr.Binds]
    exact e.binds_of_substIn hf hσ he hd
  | .binary op l r, σ, fresh, fresh', e', hf, hσ, he, h => by
    simp only [IntExpr.Binds] at he
    simp only [IntExpr.substIn] at h
    obtain ⟨⟨l', f₁⟩, hl, h⟩ := exists_of_bind_eq_ok h
    obtain ⟨⟨r', f₂⟩, hr, h⟩ := exists_of_bind_eq_ok h
    cases h
    obtain ⟨hf₁, hl⟩ := l.binds_of_substIn hf hσ he.1 hl
    obtain ⟨hf₂, hr⟩ := r.binds_of_substIn hf₁ hσ he.2 hr
    simp only [IntExpr.Binds]
    exact ⟨hf₂, hl, hr⟩
  | .call f args, σ, fresh, fresh', e', hf, hσ, he, h => by
    simp only [IntExpr.Binds] at he
    simp only [IntExpr.substIn] at h
    obtain ⟨⟨args', f₁⟩, hargs, h⟩ := exists_of_bind_eq_ok h
    cases h
    simp only [IntExpr.Binds]
    exact Expr.bindsAll_of_substAll args hf hσ he hargs
  | .fold op k c e, σ, fresh, fresh', e', hf, hσ, he, h => by
    simp only [IntExpr.substIn] at h
    split at h
    · cases h
      exact ⟨hf, he⟩
    · next k' τ f₁ hu =>
      obtain ⟨⟨c', f₂⟩, hc, h⟩ := exists_of_bind_eq_ok h
      obtain ⟨⟨d, f₃⟩, hd, h⟩ := exists_of_bind_eq_ok h
      cases h
      simp only [IntExpr.Binds] at he ⊢
      -- The new bound variable is the old one or comes from the supply.
      obtain ⟨hf₁, hk', hτ⟩ := hσ.of_under hf he.1 hu
      obtain ⟨hf₂, hc⟩ := c.binds_of_substIn hf₁ hτ he.2.1 hc
      obtain ⟨hf₃, hd⟩ := e.binds_of_substIn hf₂ hτ he.2.2 hd
      exact ⟨hf₃, hk', hc, hd⟩
  | .count k c p, σ, fresh, fresh', e', hf, hσ, he, h => by
    simp only [IntExpr.substIn] at h
    split at h
    · cases h
      exact ⟨hf, he⟩
    · next k' τ f₁ hu =>
      obtain ⟨⟨c', f₂⟩, hc, h⟩ := exists_of_bind_eq_ok h
      obtain ⟨⟨p', f₃⟩, hp, h⟩ := exists_of_bind_eq_ok h
      cases h
      simp only [IntExpr.Binds] at he ⊢
      obtain ⟨hf₁, hk', hτ⟩ := hσ.of_under hf he.1 hu
      obtain ⟨hf₂, hc⟩ := c.binds_of_substIn hf₁ hτ he.2.1 hc
      obtain ⟨hf₃, hp⟩ := p.binds_of_substIn hf₂ hτ he.2.2 hp
      exact ⟨hf₃, hk', hc, hp⟩

/-- A substituted predicate binds what was bound before, or names from the supply. -/
theorem Predicate.binds_of_substIn :
    ∀ (p : Predicate) {σ : Substitution} {fresh fresh' : FreshNames} {p' : Predicate},
      fresh.Supplies K → σ.Binds K → p.Binds K → p.substIn σ fresh = .ok (p', fresh') →
      fresh'.Supplies K ∧ p'.Binds K
  | .const b, σ, fresh, fresh', p', hf, _, hp, h => by
    simp only [Predicate.substIn] at h
    cases h
    exact ⟨hf, hp⟩
  | .not p, σ, fresh, fresh', p', hf, hσ, hp, h => by
    simp only [Predicate.Binds] at hp
    simp only [Predicate.substIn] at h
    obtain ⟨⟨q, f₁⟩, hq, h⟩ := exists_of_bind_eq_ok h
    cases h
    simp only [Predicate.Binds]
    exact p.binds_of_substIn hf hσ hp hq
  | .binary op l r, σ, fresh, fresh', p', hf, hσ, hp, h => by
    simp only [Predicate.Binds] at hp
    simp only [Predicate.substIn] at h
    obtain ⟨⟨l', f₁⟩, hl, h⟩ := exists_of_bind_eq_ok h
    obtain ⟨⟨r', f₂⟩, hr, h⟩ := exists_of_bind_eq_ok h
    cases h
    obtain ⟨hf₁, hl⟩ := l.binds_of_substIn hf hσ hp.1 hl
    obtain ⟨hf₂, hr⟩ := r.binds_of_substIn hf₁ hσ hp.2 hr
    simp only [Predicate.Binds]
    exact ⟨hf₂, hl, hr⟩
  | .comp op l r, σ, fresh, fresh', p', hf, hσ, hp, h => by
    simp only [Predicate.Binds] at hp
    simp only [Predicate.substIn] at h
    obtain ⟨⟨l', f₁⟩, hl, h⟩ := exists_of_bind_eq_ok h
    obtain ⟨⟨r', f₂⟩, hr, h⟩ := exists_of_bind_eq_ok h
    cases h
    obtain ⟨hf₁, hl⟩ := l.binds_of_substIn hf hσ hp.1 hl
    obtain ⟨hf₂, hr⟩ := r.binds_of_substIn hf₁ hσ hp.2 hr
    simp only [Predicate.Binds]
    exact ⟨hf₂, hl, hr⟩
  | .call f args, σ, fresh, fresh', p', hf, hσ, hp, h => by
    simp only [Predicate.Binds] at hp
    simp only [Predicate.substIn] at h
    obtain ⟨⟨args', f₁⟩, hargs, h⟩ := exists_of_bind_eq_ok h
    cases h
    simp only [Predicate.Binds]
    exact Expr.bindsAll_of_substAll args hf hσ hp hargs
  | .perm a b n, σ, fresh, fresh', p', hf, hσ, hp, h => by
    simp only [Predicate.Binds] at hp
    simp only [Predicate.substIn] at h
    obtain ⟨⟨a', f₁⟩, ha, h⟩ := exists_of_bind_eq_ok h
    obtain ⟨a'', hamap, h⟩ := exists_of_bind_eq_ok h
    obtain ⟨⟨b', f₂⟩, hb, h⟩ := exists_of_bind_eq_ok h
    obtain ⟨b'', hbmap, h⟩ := exists_of_bind_eq_ok h
    obtain ⟨⟨n', f₃⟩, hn, h⟩ := exists_of_bind_eq_ok h
    cases h
    obtain ⟨hf₁, ha⟩ := a.binds_of_substIn hf hσ hp.1 ha
    obtain ⟨hf₂, hb⟩ := b.binds_of_substIn hf₁ hσ hp.2.1 hb
    obtain ⟨hf₃, hn⟩ := n.binds_of_substIn hf₂ hσ hp.2.2 hn
    simp only [Predicate.Binds]
    exact ⟨hf₃, Expr.binds_of_toMap hamap ha, Expr.binds_of_toMap hbmap hb, hn⟩
  | .quant q k c p, σ, fresh, fresh', p', hf, hσ, hp, h => by
    simp only [Predicate.substIn] at h
    split at h
    · cases h
      exact ⟨hf, hp⟩
    · next k' τ f₁ hu =>
      obtain ⟨⟨c', f₂⟩, hc, h⟩ := exists_of_bind_eq_ok h
      obtain ⟨⟨r, f₃⟩, hr, h⟩ := exists_of_bind_eq_ok h
      cases h
      simp only [Predicate.Binds] at hp ⊢
      obtain ⟨hf₁, hk', hτ⟩ := hσ.of_under hf hp.1 hu
      obtain ⟨hf₂, hc⟩ := c.binds_of_substIn hf₁ hτ hp.2.1 hc
      obtain ⟨hf₃, hr⟩ := p.binds_of_substIn hf₂ hτ hp.2.2 hr
      exact ⟨hf₃, hk', hc, hr⟩

/-- Substituted arguments bind what was bound before, or names from the supply. -/
theorem Expr.bindsAll_of_substAll :
    ∀ (es : List Expr) {σ : Substitution} {fresh fresh' : FreshNames} {es' : List Expr},
      fresh.Supplies K → σ.Binds K → Expr.BindsAll K es →
      Expr.substAll σ es fresh = .ok (es', fresh') → fresh'.Supplies K ∧ Expr.BindsAll K es'
  | [], σ, fresh, fresh', es', hf, _, hes, h => by
    simp only [Expr.substAll] at h
    cases h
    exact ⟨hf, hes⟩
  | e :: es, σ, fresh, fresh', es', hf, hσ, hes, h => by
    simp only [Expr.BindsAll] at hes
    simp only [Expr.substAll] at h
    obtain ⟨⟨d, f₁⟩, hd, h⟩ := exists_of_bind_eq_ok h
    obtain ⟨⟨ds, f₂⟩, hds, h⟩ := exists_of_bind_eq_ok h
    cases h
    obtain ⟨hf₁, hd⟩ := e.binds_of_substIn hf hσ hes.1 hd
    obtain ⟨hf₂, hds⟩ := Expr.bindsAll_of_substAll es hf₁ hσ hes.2 hds
    simp only [Expr.BindsAll]
    exact ⟨hf₂, hd, hds⟩

end

/-- The bound variables after a substitution have a property that every supply of names has, if
those before it and those of the replacements have it. -/
theorem Predicate.binds_of_subst {σ : Substitution} {p p' : Predicate}
    (hK : ∀ names, (FreshNames.avoiding names).Supplies K) (hσ : σ.Binds K) (hp : p.Binds K)
    (h : p.subst σ = .ok p') : p'.Binds K := by
  obtain ⟨⟨q, fresh⟩, hin, rfl⟩ := exists_of_map_eq_ok h
  exact (p.binds_of_substIn (hK _) hσ hp hin).2

end GuardedCommand
