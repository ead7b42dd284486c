import GuardedCommand.Proofs.Kinds

/-! # Substitution of names for themselves

Replacing names by themselves changes nothing. A name can be put back in two ways, as a map or as an
integer, and the place where it stands decides what becomes of it: there is one place that keeps the
kind it is given, where a name is passed or stored as a map. No binder gets in the way, since a
replacement mentions no other name than the one it replaces.

* `Predicate.wholeMaps` and its companions: the free names that are passed or stored as maps.
* `Substitution.sameMaps`, `Substitution.sameIntegers`: the two ways to replace names by themselves.
* `Substitution.Keeps`: all pairs are of one of these kinds, and certain names are not put back as
  integers.
* `Predicate.substIn_of_keeps` and its companions: such a substitution gives the same formula and
  takes no fresh name.
* `Substitution.subst_sameNames`: both ways for predicates and integer expressions.
-/

namespace GuardedCommand

/-! ## Names passed or stored as maps -/

mutual

/-- Free names of a variable that are arguments or stored values, used as maps. -/
def Variable.wholeMaps : Variable → List String
  | .name _ => []
  | .select b i => b.wholeMaps ++ i.wholeMaps
  | .store b i e => b.wholeMaps ++ i.wholeMaps ++ e.wholeMaps

/-- Free names of an argument or a stored value that are used as maps, itself included. -/
def Expr.wholeMaps : Expr → List String
  | .map v => v.asName.toList ++ v.wholeMaps
  | .int e => e.wholeMaps

/-- Free names of an integer expression that are arguments or stored values, used as maps. -/
def IntExpr.wholeMaps : IntExpr → List String
  | .const _ => []
  | .var v => v.wholeMaps
  | .negate e => e.wholeMaps
  | .binary _ l r => l.wholeMaps ++ r.wholeMaps
  | .call _ args => Expr.wholeMapsAll args
  | .fold _ k c e => Mention.free.binder k (c.wholeMaps ++ e.wholeMaps)
  | .count k c p => Mention.free.binder k (c.wholeMaps ++ p.wholeMaps)

/-- Free names of a predicate that are arguments or stored values, used as maps. -/
def Predicate.wholeMaps : Predicate → List String
  | .const _ => []
  | .not p => p.wholeMaps
  | .binary _ l r => l.wholeMaps ++ r.wholeMaps
  | .comp _ l r => l.wholeMaps ++ r.wholeMaps
  | .call _ args => Expr.wholeMapsAll args
  | .perm a b n => a.wholeMaps ++ b.wholeMaps ++ n.wholeMaps
  | .quant _ k c p => Mention.free.binder k (c.wholeMaps ++ p.wholeMaps)

/-- Free names of arguments that are used as maps. -/
def Expr.wholeMapsAll : List Expr → List String
  | [] => []
  | e :: es => e.wholeMaps ++ Expr.wholeMapsAll es

end

/-! ## Replacing names by themselves -/

namespace Substitution

/-- Replaces names by themselves, used as maps. -/
def sameMaps (xs : List String) : Substitution :=
  ⟨xs.map fun x => (x, .map (.name x))⟩

/-- Replaces names by themselves, used as integers. -/
def sameIntegers (xs : List String) : Substitution :=
  ⟨xs.map fun x => (x, .name x)⟩

/-- Names are replaced by themselves only, and those among `xs` not by themselves as integers. -/
structure Keeps (σ : Substitution) (xs : List String) : Prop where
  /-- A replaced name is put back as a map or as an integer. -/
  same : ∀ pair ∈ σ.pairs, pair.2 = .map (.name pair.1) ∨ pair.2 = .name pair.1
  /-- Where a map is asked for and nothing else, no integer is put. -/
  whole : ∀ x ∈ xs, σ.lookup x ≠ some (.name x)

variable {σ : Substitution} {xs ys : List String} {k x : String}

/-- Names that are put back as maps are kept everywhere. -/
theorem keeps_sameMaps (xs ys : List String) : (sameMaps ys).Keeps xs := by
  have hsame : ∀ pair ∈ (sameMaps ys).pairs, pair.2 = .map (.name pair.1) :=
    List.forall_mem_map.mpr fun _ _ => rfl
  refine ⟨fun pair hpair => .inl (hsame pair hpair), fun x _ hlookup => ?_⟩
  cases hsame _ (mem_pairs_of_lookup hlookup)

/-- Names that are put back as integers are kept where no map is wanted. -/
theorem keeps_sameIntegers (h : ∀ y ∈ ys, y ∉ xs) : (sameIntegers ys).Keeps xs := by
  refine ⟨List.forall_mem_map.mpr fun _ _ => .inr rfl, fun x hx hlookup => ?_⟩
  obtain ⟨y, hy, heq⟩ := List.mem_map.mp (mem_pairs_of_lookup hlookup)
  cases heq
  exact h x hy hx

namespace Keeps

/-- What keeps the names of two parts keeps those of the first. -/
theorem left (h : σ.Keeps (xs ++ ys)) : σ.Keeps xs :=
  ⟨h.same, fun x hx => h.whole x (List.mem_append_left _ hx)⟩

/-- What keeps the names of two parts keeps those of the second. -/
theorem right (h : σ.Keeps (xs ++ ys)) : σ.Keeps ys :=
  ⟨h.same, fun x hx => h.whole x (List.mem_append_right _ hx)⟩

/-- A name becomes itself, in one of its two uses. -/
theorem replacement (h : σ.Keeps xs) (x : String) :
    σ.replacement x = .map (.name x) ∨ σ.replacement x = .name x := by
  cases hlookup : σ.lookup x with
  | none => exact .inl (replacement_of_lookup_none hlookup)
  | some e =>
    rw [replacement_of_lookup hlookup]
    exact h.same _ (mem_pairs_of_lookup hlookup)

/-- What is left below a binder of `k` does not mention `k`. -/
theorem not_mentions_hide (h : σ.Keeps xs) : (σ.hide k).mentions k = false := by
  refine List.any_eq_false.mpr fun pair hpair => ?_
  obtain ⟨hmem, hne⟩ := List.mem_filter.mp hpair
  have hne : k ≠ pair.1 := Ne.symm (by simpa using hne)
  rcases h.same pair hmem with heq | heq <;>
    simpa [heq, Expr.name, Expr.freeNames, Expr.names, IntExpr.name, IntExpr.names,
      Variable.names] using hne

/-- What keeps the names of a binder keeps those below it, apart from the bound variable. -/
theorem hide (h : σ.Keeps (Mention.free.binder k xs)) : (σ.hide k).Keeps xs := by
  refine ⟨fun pair hpair => h.same pair (List.mem_of_mem_filter hpair), fun x hx => ?_⟩
  by_cases hxk : x = k
  · subst hxk
    simp [lookup_hide_self]
  · rw [lookup_hide_of_ne hxk]
    exact h.whole x (Mention.mem_binder_free.mpr ⟨hx, hxk⟩)

/-- At a binder nothing is left to replace, or the bound variable is kept. -/
theorem under (h : σ.Keeps xs) (k : String) (fresh : FreshNames) :
    σ.under k fresh = none ∨ σ.under k fresh = some (k, σ.hide k, fresh) := by
  simp only [Substitution.under, h.not_mentions_hide, Bool.false_eq_true, if_false]
  split
  · exact .inl rfl
  · exact .inr rfl

end Keeps

/-- What becomes of a variable whose names are replaced by themselves: only a bare name may be put
to the other use. -/
def sameVariable (σ : Substitution) : Variable → Expr
  | .name x => σ.replacement x
  | v => .map v

/-- As a map a variable is the same again. -/
theorem Keeps.toMap_sameVariable (h : σ.Keeps xs) (v : Variable) :
    (σ.sameVariable v).toMap = .ok v := by
  cases v with
  | name x => rcases h.replacement x with heq | heq <;> rw [sameVariable, heq] <;> rfl
  | select b i => rfl
  | store b i e => rfl

/-- As an integer a variable is the same again, unless it is a map with a stored element. -/
theorem Keeps.toInt_sameVariable (h : σ.Keeps xs) {v : Variable} (hv : v.isStore = false) :
    (σ.sameVariable v).toInt = .ok (.var v) := by
  cases v with
  | name x => rcases h.replacement x with heq | heq <;> rw [sameVariable, heq] <;> rfl
  | select b i => rfl
  | store b i e => cases hv

/-- Where a variable is used as a map, it is kept if it may be no integer. -/
theorem Keeps.sameVariable_eq_map {v : Variable} (h : σ.Keeps v.asName.toList) :
    σ.sameVariable v = .map v := by
  cases v with
  | name x =>
    rcases h.replacement x with heq | heq
    · exact heq
    · -- the name would have to be replaced by itself as an integer
      cases hlookup : σ.lookup x with
      | none => exact replacement_of_lookup_none hlookup
      | some e =>
        rw [replacement_of_lookup hlookup] at heq
        subst heq
        exact absurd hlookup (h.whole x List.mem_cons_self)
  | select b i => rfl
  | store b i e => rfl

end Substitution

/-! ## Nothing changes -/

/-- A composed computation succeeds with what its second part gives. -/
theorem bind_eq_of_eq_ok {ε α β : Type} {x : Except ε α} {f : α → Except ε β} {a : α}
    {y : Except ε β} (hx : x = .ok a) (hf : f a = y) : x >>= f = y := by
  rw [hx]
  exact hf

mutual

/-- A variable whose names are kept is the same again, and no fresh name is taken. -/
theorem Variable.substIn_of_keeps :
    ∀ (v : Variable) {σ : Substitution} (fresh : FreshNames), σ.Keeps v.wholeMaps →
      v.wellKinded = true → v.substIn σ fresh = .ok (σ.sameVariable v, fresh)
  | .name x, σ, fresh, _, _ => by
    rw [Variable.substIn]
    rfl
  | .select b i, σ, fresh, h, hkind => by
    rw [Variable.wholeMaps] at h
    simp only [Variable.wellKinded, Bool.and_eq_true] at hkind
    rw [Variable.substIn]
    refine bind_eq_of_eq_ok (b.substIn_of_keeps fresh h.left hkind.1) ?_
    refine bind_eq_of_eq_ok (h.toMap_sameVariable b) ?_
    exact bind_eq_of_eq_ok (i.substIn_of_keeps fresh h.right hkind.2) rfl
  | .store b i e, σ, fresh, h, hkind => by
    rw [Variable.wholeMaps] at h
    simp only [Variable.wellKinded, Bool.and_eq_true] at hkind
    rw [Variable.substIn]
    refine bind_eq_of_eq_ok (b.substIn_of_keeps fresh h.left.left hkind.1.1) ?_
    refine bind_eq_of_eq_ok (h.toMap_sameVariable b) ?_
    refine bind_eq_of_eq_ok (i.substIn_of_keeps fresh h.left.right hkind.1.2) ?_
    exact bind_eq_of_eq_ok (e.substIn_of_keeps fresh h.right hkind.2) rfl

/-- An expression whose names are kept is the same again, and no fresh name is taken. -/
theorem Expr.substIn_of_keeps :
    ∀ (e : Expr) {σ : Substitution} (fresh : FreshNames), σ.Keeps e.wholeMaps →
      e.wellKinded = true → e.substIn σ fresh = .ok (e, fresh)
  | .map v, σ, fresh, h, hkind => by
    rw [Expr.wholeMaps] at h
    rw [Expr.substIn, v.substIn_of_keeps fresh h.right hkind, h.left.sameVariable_eq_map]
  | .int e, σ, fresh, h, hkind => by
    rw [Expr.wholeMaps] at h
    cases hname : e.asName with
    | some x =>
      -- as an argument a name is used as an integer again, whichever way it was put back
      rw [IntExpr.eq_name_of_asName hname, Expr.substIn]
      have hargument : (σ.replacement x).toArgument = .int (.var (.name x)) := by
        rcases h.replacement x with heq | heq <;> rw [heq] <;> rfl
      exact congrArg (fun d => Except.ok (d, fresh)) hargument
    | none =>
      rw [Expr.substIn_int hname]
      exact bind_eq_of_eq_ok (e.substIn_of_keeps fresh h hkind) rfl

/-- An integer expression whose names are kept is the same again, and no fresh name is taken. -/
theorem IntExpr.substIn_of_keeps :
    ∀ (e : IntExpr) {σ : Substitution} (fresh : FreshNames), σ.Keeps e.wholeMaps →
      e.wellKinded = true → e.substIn σ fresh = .ok (e, fresh)
  | .const c, σ, fresh, _, _ => by rw [IntExpr.substIn]
  | .var v, σ, fresh, h, hkind => by
    rw [IntExpr.wholeMaps] at h
    simp only [IntExpr.wellKinded, Bool.and_eq_true, Bool.not_eq_true'] at hkind
    rw [IntExpr.substIn]
    refine bind_eq_of_eq_ok (v.substIn_of_keeps fresh h hkind.2) ?_
    -- A map with a stored element would not do as an integer, but well-kindedness excludes it.
    exact bind_eq_of_eq_ok (h.toInt_sameVariable hkind.1) rfl
  | .negate e, σ, fresh, h, hkind => by
    rw [IntExpr.wholeMaps] at h
    rw [IntExpr.substIn]
    exact bind_eq_of_eq_ok (e.substIn_of_keeps fresh h hkind) rfl
  | .binary op l r, σ, fresh, h, hkind => by
    rw [IntExpr.wholeMaps] at h
    simp only [IntExpr.wellKinded, Bool.and_eq_true] at hkind
    rw [IntExpr.substIn]
    refine bind_eq_of_eq_ok (l.substIn_of_keeps fresh h.left hkind.1) ?_
    exact bind_eq_of_eq_ok (r.substIn_of_keeps fresh h.right hkind.2) rfl
  | .call f args, σ, fresh, h, hkind => by
    rw [IntExpr.wholeMaps] at h
    rw [IntExpr.substIn]
    exact bind_eq_of_eq_ok (Expr.substAll_of_keeps args fresh h hkind) rfl
  | .fold op k c e, σ, fresh, h, hkind => by
    rw [IntExpr.wholeMaps] at h
    simp only [IntExpr.wellKinded, Bool.and_eq_true] at hkind
    rw [IntExpr.substIn]
    rcases h.under k fresh with hu | hu <;> rw [hu]
    refine bind_eq_of_eq_ok (c.substIn_of_keeps fresh h.hide.left hkind.1) ?_
    exact bind_eq_of_eq_ok (e.substIn_of_keeps fresh h.hide.right hkind.2) rfl
  | .count k c p, σ, fresh, h, hkind => by
    rw [IntExpr.wholeMaps] at h
    simp only [IntExpr.wellKinded, Bool.and_eq_true] at hkind
    rw [IntExpr.substIn]
    rcases h.under k fresh with hu | hu <;> rw [hu]
    refine bind_eq_of_eq_ok (c.substIn_of_keeps fresh h.hide.left hkind.1) ?_
    exact bind_eq_of_eq_ok (p.substIn_of_keeps fresh h.hide.right hkind.2) rfl

/-- A predicate whose names are kept is the same again, and no fresh name is taken. -/
theorem Predicate.substIn_of_keeps :
    ∀ (p : Predicate) {σ : Substitution} (fresh : FreshNames), σ.Keeps p.wholeMaps →
      p.wellKinded = true → p.substIn σ fresh = .ok (p, fresh)
  | .const b, σ, fresh, _, _ => by rw [Predicate.substIn]
  | .not p, σ, fresh, h, hkind => by
    rw [Predicate.wholeMaps] at h
    rw [Predicate.substIn]
    exact bind_eq_of_eq_ok (p.substIn_of_keeps fresh h hkind) rfl
  | .binary op l r, σ, fresh, h, hkind => by
    rw [Predicate.wholeMaps] at h
    simp only [Predicate.wellKinded, Bool.and_eq_true] at hkind
    rw [Predicate.substIn]
    refine bind_eq_of_eq_ok (l.substIn_of_keeps fresh h.left hkind.1) ?_
    exact bind_eq_of_eq_ok (r.substIn_of_keeps fresh h.right hkind.2) rfl
  | .comp op l r, σ, fresh, h, hkind => by
    rw [Predicate.wholeMaps] at h
    simp only [Predicate.wellKinded, Bool.and_eq_true] at hkind
    rw [Predicate.substIn]
    refine bind_eq_of_eq_ok (l.substIn_of_keeps fresh h.left hkind.1) ?_
    exact bind_eq_of_eq_ok (r.substIn_of_keeps fresh h.right hkind.2) rfl
  | .call f args, σ, fresh, h, hkind => by
    rw [Predicate.wholeMaps] at h
    rw [Predicate.substIn]
    exact bind_eq_of_eq_ok (Expr.substAll_of_keeps args fresh h hkind) rfl
  | .perm a b n, σ, fresh, h, hkind => by
    rw [Predicate.wholeMaps] at h
    simp only [Predicate.wellKinded, Bool.and_eq_true] at hkind
    rw [Predicate.substIn]
    refine bind_eq_of_eq_ok (a.substIn_of_keeps fresh h.left.left hkind.1.1) ?_
    refine bind_eq_of_eq_ok (h.toMap_sameVariable a) ?_
    refine bind_eq_of_eq_ok (b.substIn_of_keeps fresh h.left.right hkind.1.2) ?_
    refine bind_eq_of_eq_ok (h.toMap_sameVariable b) ?_
    exact bind_eq_of_eq_ok (n.substIn_of_keeps fresh h.right hkind.2) rfl
  | .quant q k c p, σ, fresh, h, hkind => by
    rw [Predicate.wholeMaps] at h
    simp only [Predicate.wellKinded, Bool.and_eq_true] at hkind
    rw [Predicate.substIn]
    -- The bound variable keeps its name: it is hidden, and no replacement mentions it.
    rcases h.under k fresh with hu | hu <;> rw [hu]
    refine bind_eq_of_eq_ok (c.substIn_of_keeps fresh h.hide.left hkind.1) ?_
    exact bind_eq_of_eq_ok (p.substIn_of_keeps fresh h.hide.right hkind.2) rfl

/-- Arguments whose names are kept are the same again, and no fresh name is taken. -/
theorem Expr.substAll_of_keeps :
    ∀ (es : List Expr) {σ : Substitution} (fresh : FreshNames), σ.Keeps (Expr.wholeMapsAll es) →
      Expr.wellKindedAll es = true → Expr.substAll σ es fresh = .ok (es, fresh)
  | [], σ, fresh, _, _ => by rw [Expr.substAll]
  | e :: es, σ, fresh, h, hkind => by
    rw [Expr.wholeMapsAll] at h
    simp only [Expr.wellKindedAll, Bool.and_eq_true] at hkind
    rw [Expr.substAll]
    refine bind_eq_of_eq_ok (e.substIn_of_keeps fresh h.left hkind.1) ?_
    exact bind_eq_of_eq_ok (Expr.substAll_of_keeps es fresh h.right hkind.2) rfl

end

/-- A predicate whose names are kept is substituted by itself. -/
theorem Predicate.subst_of_keeps {p : Predicate} {σ : Substitution} (h : σ.Keeps p.wholeMaps)
    (hkind : p.wellKinded = true) : p.subst σ = .ok p := by
  rw [Predicate.subst, p.substIn_of_keeps _ h hkind]
  rfl

/-- An integer expression whose names are kept is substituted by itself. -/
theorem IntExpr.subst_of_keeps {e : IntExpr} {σ : Substitution} (h : σ.Keeps e.wholeMaps)
    (hkind : e.wellKinded = true) : e.subst σ = .ok e := by
  rw [IntExpr.subst, e.substIn_of_keeps _ h hkind]
  rfl

/-- Replacing names by themselves, used as maps, gives the same well-kinded predicate or integer
expression. So does replacing them by themselves, used as integers, unless one of them occurs free
as an argument or a stored value that is used as a map. -/
theorem Substitution.subst_sameNames (xs : List String) :
    (∀ p : Predicate, p.wellKinded = true →
      p.subst (.sameMaps xs) = .ok p ∧
        ((∀ x ∈ xs, x ∉ p.wholeMaps) → p.subst (.sameIntegers xs) = .ok p)) ∧
    ∀ e : IntExpr, e.wellKinded = true →
      e.subst (.sameMaps xs) = .ok e ∧
        ((∀ x ∈ xs, x ∉ e.wholeMaps) → e.subst (.sameIntegers xs) = .ok e) := by
  refine ⟨fun p hkind => ⟨?_, fun hwhole => ?_⟩, fun e hkind => ⟨?_, fun hwhole => ?_⟩⟩
  · exact Predicate.subst_of_keeps (keeps_sameMaps _ _) hkind
  · exact Predicate.subst_of_keeps (keeps_sameIntegers hwhole) hkind
  · exact IntExpr.subst_of_keeps (keeps_sameMaps _ _) hkind
  · exact IntExpr.subst_of_keeps (keeps_sameIntegers hwhole) hkind

/-- The predicate `(A k : k < x : f(k, x) ≤ a[k])`, where `k` is passed to `f` as a map. -/
def passesBound : Predicate :=
  .quant .all "k" (.comp .lt (.name "k") (.name "x"))
    (.comp .le (.call "f" [.map (.name "k"), .name "x"]) (.var (.select (.name "a") (.name "k"))))

/-- No occurrence in `passesBound` changes, whichever way its names are put back: the `k` that is
passed as a map is bound, although `k` is among the names. -/
theorem passesBound_subst :
    let xs := ["x", "k", "a", "x"]
    passesBound.wellKinded = true ∧ (∀ x ∈ xs, x ∉ passesBound.wholeMaps) ∧
      passesBound.subst (.sameMaps xs) = .ok passesBound ∧
      passesBound.subst (.sameIntegers xs) = .ok passesBound := by
  intro xs
  have hkind : passesBound.wellKinded = true := by decide +kernel
  have hwhole : ∀ x ∈ xs, x ∉ passesBound.wholeMaps := by decide +kernel
  obtain ⟨hmaps, hintegers⟩ := (Substitution.subst_sameNames xs).1 passesBound hkind
  exact ⟨hkind, hwhole, hmaps, hintegers hwhole⟩

end GuardedCommand
