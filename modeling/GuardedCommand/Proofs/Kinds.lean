import GuardedCommand.Proofs.SubstitutionRules

/-! # Kinds of replacements

A name stands for a map or for an integer, and only the place where it occurs tells which. A
substitution fails if a replacement is not of the kind that a place asks for, and for no other
reason.

* `Predicate.wellKinded` and its companions: no stored map is used as an integer.
* `Kind`, `Predicate.occurrences` and its companions: the free occurrences of names, each with what
  its place asks for.
* `Node.names_occurrences`: the names that occur are the free names.
* `Expr.OfKind`: which replacements are welcome at a place.
* `Node.errorOf_subst`: the error of a substitution is that of the first occurrence whose
  replacement does not fit.
* `Node.subst_ok_iff`: a substitution succeeds if all replacements fit.
-/

namespace GuardedCommand

/-! ## Well-kinded formulas -/

/-- Whether the variable is a map with a stored element. -/
def Variable.isStore : Variable → Bool
  | .store .. => true
  | _ => false

mutual

/-- No integer expression in the variable is a map with a stored element. -/
def Variable.wellKinded : Variable → Bool
  | .name _ => true
  | .select b i => b.wellKinded && i.wellKinded
  | .store b i e => b.wellKinded && i.wellKinded && e.wellKinded

/-- No integer expression in the expression is a map with a stored element. -/
def Expr.wellKinded : Expr → Bool
  | .map v => v.wellKinded
  | .int e => e.wellKinded

/-- No integer expression in the integer expression is a map with a stored element. -/
def IntExpr.wellKinded : IntExpr → Bool
  | .const _ => true
  | .var v => !v.isStore && v.wellKinded
  | .negate e => e.wellKinded
  | .binary _ l r => l.wellKinded && r.wellKinded
  | .call _ args => Expr.wellKindedAll args
  | .fold _ _ c e => c.wellKinded && e.wellKinded
  | .count _ c p => c.wellKinded && p.wellKinded

/-- No integer expression in the predicate is a map with a stored element. -/
def Predicate.wellKinded : Predicate → Bool
  | .const _ => true
  | .not p => p.wellKinded
  | .binary _ l r => l.wellKinded && r.wellKinded
  | .comp _ l r => l.wellKinded && r.wellKinded
  | .call _ args => Expr.wellKindedAll args
  | .perm a b n => a.wellKinded && b.wellKinded && n.wellKinded
  | .quant _ _ c p => c.wellKinded && p.wellKinded

/-- No integer expression in the arguments is a map with a stored element. -/
def Expr.wellKindedAll : List Expr → Bool
  | [] => true
  | e :: es => e.wellKinded && Expr.wellKindedAll es

end

/-- No integer expression in the node is a map with a stored element. -/
def Node.wellKinded : Node → Bool
  | .predicate p => p.wellKinded
  | .int e => e.wellKinded
  | .var v => v.wellKinded
  | .expr e => e.wellKinded

/-! ## Occurrences of names -/

/-- The kind of value that a place asks for. -/
inductive Kind where
  /-- A map: an element is selected from it or stored in it, or it is an array of a permutation. -/
  | map
  /-- An integer. -/
  | integer
  /-- An argument, a stored value or a whole expression may be either. -/
  | either
  deriving DecidableEq

/-- An occurrence of a name. -/
structure Occurrence where
  /-- The name. -/
  name : String
  /-- What is asked for where it stands. -/
  kind : Kind
  deriving DecidableEq

/-- The occurrences below a binder of `k` that are free outside of it. -/
def Occurrence.outside (k : String) (os : List Occurrence) : List Occurrence :=
  os.filter (·.name ≠ k)

mutual

/-- Free occurrences of names in a variable that is to be of the given kind, from left to right. -/
def Variable.occurrences (kind : Kind) : Variable → List Occurrence
  | .name x => [⟨x, kind⟩]
  | .select b i => b.occurrences .map ++ i.occurrences
  | .store b i e => b.occurrences .map ++ i.occurrences ++ e.occurrences

/-- Free occurrences of names in an argument or a stored value. -/
def Expr.occurrences : Expr → List Occurrence
  | .map v => v.occurrences .either
  | .int e =>
    match e.asName with
    | some x => [⟨x, .either⟩]
    | none => e.occurrences

/-- Free occurrences of names in an integer expression. -/
def IntExpr.occurrences : IntExpr → List Occurrence
  | .const _ => []
  | .var v => v.occurrences .integer
  | .negate e => e.occurrences
  | .binary _ l r => l.occurrences ++ r.occurrences
  | .call _ args => Expr.occurrencesAll args
  | .fold _ k c e => Occurrence.outside k (c.occurrences ++ e.occurrences)
  | .count k c p => Occurrence.outside k (c.occurrences ++ p.occurrences)

/-- Free occurrences of names in a predicate. -/
def Predicate.occurrences : Predicate → List Occurrence
  | .const _ => []
  | .not p => p.occurrences
  | .binary _ l r => l.occurrences ++ r.occurrences
  | .comp _ l r => l.occurrences ++ r.occurrences
  | .call _ args => Expr.occurrencesAll args
  | .perm a b n => a.occurrences .map ++ b.occurrences .map ++ n.occurrences
  | .quant _ k c p => Occurrence.outside k (c.occurrences ++ p.occurrences)

/-- Free occurrences of names in arguments. -/
def Expr.occurrencesAll : List Expr → List Occurrence
  | [] => []
  | e :: es => e.occurrences ++ Expr.occurrencesAll es

end

/-- Free occurrences of names in a node. -/
def Node.occurrences : Node → List Occurrence
  | .predicate p => p.occurrences
  | .int e => e.occurrences
  | .var v => v.occurrences .either
  | .expr e => e.occurrences

/-- Outside a binder the names that occur are those below it, apart from the bound variable. -/
theorem Occurrence.names_outside (k : String) (os : List Occurrence) :
    (outside k os).map name = Mention.free.binder k (os.map name) := by
  simp only [Mention.binder, Mention.free, Bool.false_eq_true, if_false, List.filter_map]
  rfl

mutual

/-- The names that occur in a variable are its free names. -/
theorem Variable.names_occurrences (kind : Kind) :
    ∀ v : Variable, (v.occurrences kind).map Occurrence.name = v.freeNames
  | .name x => by rw [Variable.occurrences, Variable.freeNames, Variable.names, List.map_singleton]
  | .select b i => by
    rw [Variable.occurrences, List.map_append, b.names_occurrences, i.names_occurrences,
      Variable.freeNames_select]
  | .store b i e => by
    rw [Variable.occurrences, List.map_append, List.map_append, b.names_occurrences,
      i.names_occurrences, e.names_occurrences, Variable.freeNames_store]

/-- The names that occur in an expression are its free names. -/
theorem Expr.names_occurrences : ∀ e : Expr, e.occurrences.map Occurrence.name = e.freeNames
  | .map v => by
    rw [Expr.occurrences, v.names_occurrences, Expr.freeNames_map]
  | .int e => by
    rw [Expr.occurrences]
    cases hname : e.asName with
    | some x =>
      rw [IntExpr.eq_name_of_asName hname]
      rfl
    | none => exact e.names_occurrences

/-- The names that occur in an integer expression are its free names. -/
theorem IntExpr.names_occurrences :
    ∀ e : IntExpr, e.occurrences.map Occurrence.name = e.freeNames
  | .const c => by
    rw [IntExpr.occurrences, List.map_nil, IntExpr.freeNames_const]
  | .var v => by
    rw [IntExpr.occurrences, v.names_occurrences]
    rfl
  | .negate e => by
    rw [IntExpr.occurrences, e.names_occurrences]
    rfl
  | .binary _ l r => by
    rw [IntExpr.occurrences, List.map_append, l.names_occurrences, r.names_occurrences,
      IntExpr.freeNames_binary]
  | .call _ args => by
    rw [IntExpr.occurrences, Expr.names_occurrencesAll]
    rfl
  | .fold _ k c e => by
    rw [IntExpr.occurrences, Occurrence.names_outside, List.map_append, c.names_occurrences,
      e.names_occurrences]
    rfl
  | .count k c p => by
    rw [IntExpr.occurrences, Occurrence.names_outside, List.map_append, c.names_occurrences,
      p.names_occurrences]
    rfl

/-- The names that occur in a predicate are its free names. -/
theorem Predicate.names_occurrences :
    ∀ p : Predicate, p.occurrences.map Occurrence.name = p.freeNames
  | .const b => by
    rw [Predicate.occurrences]
    rfl
  | .not p => by
    rw [Predicate.occurrences, p.names_occurrences]
    rfl
  | .binary _ l r => by
    rw [Predicate.occurrences, List.map_append, l.names_occurrences, r.names_occurrences,
      Predicate.freeNames_binary]
  | .comp _ l r => by
    rw [Predicate.occurrences, List.map_append, l.names_occurrences, r.names_occurrences,
      Predicate.freeNames_comp]
  | .call _ args => by
    rw [Predicate.occurrences, Expr.names_occurrencesAll]
    rfl
  | .perm a b n => by
    rw [Predicate.occurrences, List.map_append, List.map_append, a.names_occurrences,
      b.names_occurrences, n.names_occurrences, Predicate.freeNames_perm]
  | .quant _ k c p => by
    rw [Predicate.occurrences, Occurrence.names_outside, List.map_append, c.names_occurrences,
      p.names_occurrences]
    rfl

/-- The names that occur in arguments are their free names. -/
theorem Expr.names_occurrencesAll :
    ∀ es : List Expr, (Expr.occurrencesAll es).map Occurrence.name = Expr.namesAll .free es
  | [] => by
    rw [Expr.occurrencesAll]
    rfl
  | e :: es => by
    rw [Expr.occurrencesAll, List.map_append, e.names_occurrences, Expr.names_occurrencesAll]
    rfl

end

/-- The names that occur are the free names, in order. -/
theorem Node.names_occurrences (n : Node) : n.occurrences.map Occurrence.name = n.freeNames := by
  cases n with
  | predicate p => exact p.names_occurrences
  | int e => exact e.names_occurrences
  | var v => exact v.names_occurrences .either
  | expr e => exact e.names_occurrences

/-! ## Replacements that do not fit -/

/-- The expression can be used as a value of the kind: a map has to be a variable, and an integer
must not be a map with a stored element. -/
def Expr.OfKind (e : Expr) : Kind → Prop
  | .map => (∃ v, e = .map v) ∨ ∃ v, e = .int (.var v)
  | .integer => ∀ b i d, e ≠ .map (.store b i d)
  | .either => True

/-- The error of a computation, if it fails. -/
def errorOf {ε α : Type} : Except ε α → Option ε
  | .ok _ => none
  | .error err => some err

/-- The error of an expression that does not fit. -/
def Expr.misfit (e : Expr) : Kind → Option SubstError
  | .map => errorOf e.toMap
  | .integer => errorOf e.toInt
  | .either => none

/-- A replacement has no error at a place exactly if it is of the kind that the place asks for. -/
theorem Expr.misfit_eq_none_iff {e : Expr} {kind : Kind} :
    e.misfit kind = none ↔ e.OfKind kind := by
  cases kind with
  | map =>
    cases e with
    | map v => simp [misfit, toMap, asVariable, errorOf, OfKind]
    | int e => cases e <;> simp [misfit, toMap, asVariable, errorOf, OfKind]
  | integer =>
    cases e with
    | map v => cases v <;> simp [misfit, toInt, errorOf, OfKind]
    | int e => simp [misfit, toInt, errorOf, OfKind]
  | either => simp [misfit, OfKind]

/-- The error says what was found, and that it does not fit. -/
theorem Expr.eq_of_misfit {e : Expr} {kind : Kind} {err : SubstError}
    (h : e.misfit kind = some err) :
    (kind = .map ∧ err = .scalarForMap e) ∨
      (kind = .integer ∧ ∃ v, e = .map v ∧ err = .mapForScalar v) := by
  cases kind with
  | map =>
    refine .inl ⟨rfl, ?_⟩
    change errorOf e.toMap = some err at h
    unfold toMap at h
    split at h <;> cases h
    rfl
  | integer =>
    refine .inr ⟨rfl, ?_⟩
    change errorOf e.toInt = some err at h
    unfold toInt at h
    split at h <;> cases h
    exact ⟨_, rfl, rfl⟩
  | either => cases h

namespace Substitution

variable {σ τ : Substitution} {k k' x : String} {fresh fresh' : FreshNames}

/-- The error of what becomes of a name that occurs. -/
def misfit (σ : Substitution) (o : Occurrence) : Option SubstError :=
  (σ.replacement o.name).misfit o.kind

/-- A name fits everywhere, used as a map or as an integer. -/
theorem misfit_of_lookup_none {o : Occurrence} (h : σ.lookup o.name = none) :
    σ.misfit o = none := by
  rw [misfit, replacement_of_lookup_none h]
  cases o.kind <;> rfl

/-- A name in the place of a name fits everywhere. -/
theorem misfit_of_lookup_name {o : Occurrence} (h : σ.lookup o.name = some (.name x)) :
    σ.misfit o = none := by
  rw [misfit, replacement_of_lookup h]
  cases o.kind <;> rfl

/-- The first error among what becomes of names that occur. -/
def firstMisfit (σ : Substitution) (os : List Occurrence) : Option SubstError :=
  os.findSome? σ.misfit

/-- The first error in two lists is that of the first or else that of the second. -/
theorem firstMisfit_append (os os' : List Occurrence) :
    σ.firstMisfit (os ++ os') = (σ.firstMisfit os).or (σ.firstMisfit os') :=
  List.findSome?_append

/-- Where nothing is left to replace below a binder, everything fits. -/
theorem firstMisfit_of_under_none (h : σ.under k fresh = none) (os : List Occurrence) :
    σ.firstMisfit (Occurrence.outside k os) = none := by
  refine List.findSome?_eq_none_iff.mpr fun o ho => ?_
  have hne : o.name ≠ k := by simpa using (List.mem_filter.mp ho).2
  exact misfit_of_lookup_none (lookup_of_under_none h hne)

/-- Below a binder what fits is what fits outside, and the bound variable, renamed or not. -/
theorem misfit_under (h : σ.under k fresh = some (k', τ, fresh')) (o : Occurrence) :
    τ.misfit o = if o.name = k then none else σ.misfit o := by
  split
  · next ho =>
    rcases under_cases h with ⟨-, rfl, -⟩ | ⟨-, -, rfl, -⟩
    · exact misfit_of_lookup_name (by rw [lookup_rename, if_pos ho])
    · exact misfit_of_lookup_none (by rw [ho, lookup_hide_self])
  · next ho =>
    rcases under_cases h with ⟨-, rfl, -⟩ | ⟨-, -, rfl, -⟩
    · rw [misfit, misfit, replacement, replacement, lookup_rename, if_neg ho]
    · rw [misfit, misfit, replacement, replacement, lookup_hide_of_ne ho]

/-- Below a binder the errors are those of the occurrences that are free outside it. -/
theorem firstMisfit_under (h : σ.under k fresh = some (k', τ, fresh')) (os : List Occurrence) :
    τ.firstMisfit os = σ.firstMisfit (Occurrence.outside k os) := by
  induction os with
  | nil => rfl
  | cons o os ih =>
    have hhead := misfit_under h o
    rw [← List.singleton_append, Occurrence.outside, List.filter_append, firstMisfit_append,
      firstMisfit_append, ih, Occurrence.outside]
    congr 1
    by_cases ho : o.name = k
    · simp [firstMisfit, ho, hhead]
    · simp [firstMisfit, ho, hhead]

end Substitution

/-! ## The error of a substitution -/

section Steps

variable {ε α β : Type} {x : Except ε α} {f : α → Except ε β}

/-- The first part of a composed computation that fails gives the error. -/
theorem errorOf_bind {o : Option ε} (h : ∀ a, x = .ok a → errorOf (f a) = o) :
    errorOf (x >>= f) = (errorOf x).or o := by
  cases x with
  | error err => rfl
  | ok a => exact h a rfl

/-- What comes last and cannot fail has no effect on the error. -/
theorem errorOf_bind_of_ok (h : ∀ a, errorOf (f a) = none) : errorOf (x >>= f) = errorOf x := by
  rw [errorOf_bind fun a _ => h a, Option.or_none]

end Steps

/-- One part of a formula after another. -/
theorem errorOf_bind_append {α β : Type} {σ : Substitution} {x : Except SubstError α}
    {f : α → Except SubstError β} {os os' : List Occurrence} (hx : errorOf x = σ.firstMisfit os)
    (hf : ∀ a, errorOf (f a) = σ.firstMisfit os') :
    errorOf (x >>= f) = σ.firstMisfit (os ++ os') := by
  rw [errorOf_bind fun a _ => hf a, hx, σ.firstMisfit_append]

/-- Only a name becomes something of another kind. -/
theorem Variable.eq_map_of_substIn {v : Variable} {σ : Substitution} {fresh fresh' : FreshNames}
    {e : Expr} (hname : v.asName = none) (h : v.substIn σ fresh = .ok (e, fresh')) :
    ∃ w, e = .map w ∧ w.isStore = v.isStore := by
  cases v with
  | name x => cases hname
  | select b i =>
    simp only [substIn] at h
    obtain ⟨⟨b', f₁⟩, -, h⟩ := exists_of_bind_eq_ok h
    obtain ⟨w, -, h⟩ := exists_of_bind_eq_ok h
    obtain ⟨⟨i', f₂⟩, -, h⟩ := exists_of_bind_eq_ok h
    cases h
    exact ⟨_, rfl, rfl⟩
  | store b i d =>
    simp only [substIn] at h
    obtain ⟨⟨b', f₁⟩, -, h⟩ := exists_of_bind_eq_ok h
    obtain ⟨w, -, h⟩ := exists_of_bind_eq_ok h
    obtain ⟨⟨i', f₂⟩, -, h⟩ := exists_of_bind_eq_ok h
    obtain ⟨⟨d', f₃⟩, -, h⟩ := exists_of_bind_eq_ok h
    cases h
    exact ⟨_, rfl, rfl⟩

/-- A variable fits everywhere, unless it is a map with a stored element and an integer is
wanted. -/
theorem Expr.misfit_map {v : Variable} {kind : Kind} (h : kind = .integer → v.isStore = false) :
    (Expr.map v).misfit kind = none := by
  cases kind with
  | map => rfl
  | integer =>
    cases v with
    | store b i e => cases h rfl
    | _ => rfl
  | either => rfl

/-- The kind that a place asks for only matters to a name. -/
theorem Variable.occurrences_of_asName {v : Variable} (h : v.asName = none) (kind : Kind) :
    v.occurrences kind = v.occurrences .either := by
  cases v with
  | name x => cases h
  | select b i => simp only [occurrences]
  | store b i e => simp only [occurrences]

/-- A variable that is used as a value of the given kind, and what comes after it. -/
theorem Variable.errorOf_bind_append {α : Type} {v : Variable} {σ : Substitution}
    {fresh : FreshNames} {kind : Kind} {f : Expr × FreshNames → Except SubstError α}
    {os : List Occurrence}
    (hv : errorOf (v.substIn σ fresh) = σ.firstMisfit (v.occurrences .either))
    (hstore : kind = .integer → v.isStore = false)
    (hf : ∀ e fresh', errorOf (f (e, fresh')) = (e.misfit kind).or (σ.firstMisfit os)) :
    errorOf (v.substIn σ fresh >>= f) = σ.firstMisfit (v.occurrences kind ++ os) := by
  rw [σ.firstMisfit_append]
  -- The kind is looked at after the substitution, so it can only be wrong where a whole replacement
  -- is found, at a name. Everything else is still the map that it was.
  cases hname : v.asName with
  | some x =>
    cases v with
    | name y =>
      have hy : σ.firstMisfit [⟨y, kind⟩] = (σ.replacement y).misfit kind := by
        simp [Substitution.firstMisfit, Substitution.misfit]
      rw [Variable.substIn, Variable.occurrences, hy]
      exact hf _ fresh
    | _ => cases hname
  | none =>
    rw [v.occurrences_of_asName hname, ← hv]
    refine errorOf_bind fun r hr => ?_
    obtain ⟨e, fresh'⟩ := r
    obtain ⟨w, rfl, hw⟩ := Variable.eq_map_of_substIn hname hr
    rw [hf, Expr.misfit_map fun h => hw.trans (hstore h), Option.none_or]

mutual

/-- The error of substituting in a variable is that of the first occurrence that does not fit. -/
theorem Variable.errorOf_substIn :
    ∀ (v : Variable) {σ : Substitution} (fresh : FreshNames), v.wellKinded = true →
      errorOf (v.substIn σ fresh) = σ.firstMisfit (v.occurrences .either)
  | .name x, σ, fresh, _ => by
    rw [Variable.substIn, Variable.occurrences]
    rfl
  | .select b i, σ, fresh, h => by
    simp only [Variable.wellKinded, Bool.and_eq_true] at h
    rw [Variable.substIn, Variable.occurrences]
    refine Variable.errorOf_bind_append (b.errorOf_substIn fresh h.1) (fun h => by cases h)
      fun b' f₁ => ?_
    refine errorOf_bind fun w _ => ?_
    exact (errorOf_bind_of_ok fun _ => rfl).trans (i.errorOf_substIn f₁ h.2)
  | .store b i e, σ, fresh, h => by
    simp only [Variable.wellKinded, Bool.and_eq_true] at h
    rw [Variable.substIn, Variable.occurrences, List.append_assoc]
    refine Variable.errorOf_bind_append (b.errorOf_substIn fresh h.1.1) (fun h => by cases h)
      fun b' f₁ => ?_
    refine errorOf_bind fun w _ => ?_
    refine errorOf_bind_append (i.errorOf_substIn f₁ h.1.2) fun r => ?_
    exact (errorOf_bind_of_ok fun _ => rfl).trans (e.errorOf_substIn r.2 h.2)

/-- The error of substituting in an expression is that of the first occurrence that does not fit. -/
theorem Expr.errorOf_substIn :
    ∀ (e : Expr) {σ : Substitution} (fresh : FreshNames), e.wellKinded = true →
      errorOf (e.substIn σ fresh) = σ.firstMisfit e.occurrences
  | .map v, σ, fresh, h => by
    rw [Expr.substIn, Expr.occurrences]
    exact v.errorOf_substIn fresh h
  | .int e, σ, fresh, h => by
    rw [Expr.occurrences]
    cases hname : e.asName with
    | some x =>
      rw [IntExpr.eq_name_of_asName hname, Expr.substIn]
      rfl
    | none =>
      rw [Expr.substIn_int hname]
      exact (errorOf_bind_of_ok fun _ => rfl).trans (e.errorOf_substIn fresh h)

/-- The error of substituting in an integer expression is that of the first occurrence that does not
fit. -/
theorem IntExpr.errorOf_substIn :
    ∀ (e : IntExpr) {σ : Substitution} (fresh : FreshNames), e.wellKinded = true →
      errorOf (e.substIn σ fresh) = σ.firstMisfit e.occurrences
  | .const c, σ, fresh, _ => by
    rw [IntExpr.substIn, IntExpr.occurrences]
    rfl
  | .var v, σ, fresh, h => by
    simp only [IntExpr.wellKinded, Bool.and_eq_true, Bool.not_eq_true'] at h
    rw [IntExpr.substIn, IntExpr.occurrences, ← List.append_nil (v.occurrences .integer)]
    refine Variable.errorOf_bind_append (v.errorOf_substIn fresh h.2) (fun _ => h.1)
      fun e f₁ => ?_
    exact errorOf_bind fun _ _ => rfl
  | .negate e, σ, fresh, h => by
    rw [IntExpr.substIn, IntExpr.occurrences]
    exact (errorOf_bind_of_ok fun _ => rfl).trans (e.errorOf_substIn fresh h)
  | .binary op l r, σ, fresh, h => by
    simp only [IntExpr.wellKinded, Bool.and_eq_true] at h
    rw [IntExpr.substIn, IntExpr.occurrences]
    refine errorOf_bind_append (l.errorOf_substIn fresh h.1) fun l' => ?_
    exact (errorOf_bind_of_ok fun _ => rfl).trans (r.errorOf_substIn l'.2 h.2)
  | .call f args, σ, fresh, h => by
    rw [IntExpr.substIn, IntExpr.occurrences]
    exact (errorOf_bind_of_ok fun _ => rfl).trans (Expr.errorOf_substAll args fresh h)
  | .fold op k c e, σ, fresh, h => by
    simp only [IntExpr.wellKinded, Bool.and_eq_true] at h
    rw [IntExpr.substIn, IntExpr.occurrences]
    split
    · next hu => exact (Substitution.firstMisfit_of_under_none hu _).symm
    · next k' τ f₁ hu =>
      -- the parts are substituted in with `τ`, for which all their occurrences are free
      rw [← Substitution.firstMisfit_under hu]
      refine errorOf_bind_append (c.errorOf_substIn f₁ h.1) fun c' => ?_
      exact (errorOf_bind_of_ok fun _ => rfl).trans (e.errorOf_substIn c'.2 h.2)
  | .count k c p, σ, fresh, h => by
    simp only [IntExpr.wellKinded, Bool.and_eq_true] at h
    rw [IntExpr.substIn, IntExpr.occurrences]
    split
    · next hu => exact (Substitution.firstMisfit_of_under_none hu _).symm
    · next k' τ f₁ hu =>
      rw [← Substitution.firstMisfit_under hu]
      refine errorOf_bind_append (c.errorOf_substIn f₁ h.1) fun c' => ?_
      exact (errorOf_bind_of_ok fun _ => rfl).trans (p.errorOf_substIn c'.2 h.2)

/-- The error of substituting in a predicate is that of the first occurrence that does not fit. -/
theorem Predicate.errorOf_substIn :
    ∀ (p : Predicate) {σ : Substitution} (fresh : FreshNames), p.wellKinded = true →
      errorOf (p.substIn σ fresh) = σ.firstMisfit p.occurrences
  | .const b, σ, fresh, _ => by
    rw [Predicate.substIn, Predicate.occurrences]
    rfl
  | .not p, σ, fresh, h => by
    rw [Predicate.substIn, Predicate.occurrences]
    exact (errorOf_bind_of_ok fun _ => rfl).trans (p.errorOf_substIn fresh h)
  | .binary op l r, σ, fresh, h => by
    simp only [Predicate.wellKinded, Bool.and_eq_true] at h
    rw [Predicate.substIn, Predicate.occurrences]
    refine errorOf_bind_append (l.errorOf_substIn fresh h.1) fun l' => ?_
    exact (errorOf_bind_of_ok fun _ => rfl).trans (r.errorOf_substIn l'.2 h.2)
  | .comp op l r, σ, fresh, h => by
    simp only [Predicate.wellKinded, Bool.and_eq_true] at h
    rw [Predicate.substIn, Predicate.occurrences]
    refine errorOf_bind_append (l.errorOf_substIn fresh h.1) fun l' => ?_
    exact (errorOf_bind_of_ok fun _ => rfl).trans (r.errorOf_substIn l'.2 h.2)
  | .call f args, σ, fresh, h => by
    rw [Predicate.substIn, Predicate.occurrences]
    exact (errorOf_bind_of_ok fun _ => rfl).trans (Expr.errorOf_substAll args fresh h)
  | .perm a b n, σ, fresh, h => by
    simp only [Predicate.wellKinded, Bool.and_eq_true] at h
    rw [Predicate.substIn, Predicate.occurrences, List.append_assoc]
    -- The result for each array has to be a map before the next part is substituted in.
    refine Variable.errorOf_bind_append (a.errorOf_substIn fresh h.1.1) (fun h => by cases h)
      fun a' f₁ => ?_
    refine errorOf_bind fun v _ => ?_
    refine Variable.errorOf_bind_append (b.errorOf_substIn f₁ h.1.2) (fun h => by cases h)
      fun b' f₂ => ?_
    refine errorOf_bind fun w _ => ?_
    exact (errorOf_bind_of_ok fun _ => rfl).trans (n.errorOf_substIn f₂ h.2)
  | .quant q k c p, σ, fresh, h => by
    simp only [Predicate.wellKinded, Bool.and_eq_true] at h
    rw [Predicate.substIn, Predicate.occurrences]
    split
    · next hu => exact (Substitution.firstMisfit_of_under_none hu _).symm
    · next k' τ f₁ hu =>
      rw [← Substitution.firstMisfit_under hu]
      refine errorOf_bind_append (c.errorOf_substIn f₁ h.1) fun c' => ?_
      exact (errorOf_bind_of_ok fun _ => rfl).trans (p.errorOf_substIn c'.2 h.2)

/-- The error of substituting in arguments is that of the first occurrence that does not fit. -/
theorem Expr.errorOf_substAll :
    ∀ (es : List Expr) {σ : Substitution} (fresh : FreshNames), Expr.wellKindedAll es = true →
      errorOf (Expr.substAll σ es fresh) = σ.firstMisfit (Expr.occurrencesAll es)
  | [], σ, fresh, _ => by
    rw [Expr.substAll, Expr.occurrencesAll]
    rfl
  | e :: es, σ, fresh, h => by
    simp only [Expr.wellKindedAll, Bool.and_eq_true] at h
    rw [Expr.substAll, Expr.occurrencesAll]
    refine errorOf_bind_append (e.errorOf_substIn fresh h.1) fun e' => ?_
    exact (errorOf_bind_of_ok fun _ => rfl).trans (Expr.errorOf_substAll es e'.2 h.2)

end

/-- A function of the result changes no error. -/
theorem errorOf_map {ε α β : Type} (f : α → β) (x : Except ε α) :
    errorOf (f <$> x) = errorOf x := by
  cases x <;> rfl

/-- A substitution fails with the error of the first occurrence whose replacement does not fit. -/
theorem Node.errorOf_subst {n : Node} (h : n.wellKinded = true) (σ : Substitution) :
    errorOf (n.subst σ) = σ.firstMisfit n.occurrences := by
  cases n with
  | predicate p =>
    rw [Node.subst, errorOf_map, Predicate.subst, errorOf_map]
    exact p.errorOf_substIn _ h
  | int e =>
    rw [Node.subst, errorOf_map, IntExpr.subst, errorOf_map]
    exact e.errorOf_substIn _ h
  | var v =>
    rw [Node.subst, errorOf_map, Variable.subst, errorOf_map]
    exact v.errorOf_substIn _ h
  | expr e =>
    rw [Node.subst, errorOf_map, Expr.subst, errorOf_map]
    exact e.errorOf_substIn _ h

/-! ## Success and failure -/

/-- A computation without an error has a result. -/
theorem errorOf_eq_none_iff {ε α : Type} {x : Except ε α} :
    errorOf x = none ↔ ∃ a, x = .ok a := by
  cases x <;> simp [errorOf]

namespace Substitution

variable {σ : Substitution} {os : List Occurrence}

/-- A name that occurs has no error if its replacement, if any, is of the kind of the place. -/
theorem misfit_eq_none_iff {o : Occurrence} :
    σ.misfit o = none ↔ ∀ e, σ.lookup o.name = some e → e.OfKind o.kind := by
  cases hlookup : σ.lookup o.name with
  | none => simp [misfit_of_lookup_none hlookup]
  | some e => simp [misfit, replacement_of_lookup hlookup, Expr.misfit_eq_none_iff]

/-- There is no error if every replacement is of the kind of each place of its name. -/
theorem firstMisfit_eq_none_iff :
    σ.firstMisfit os = none ↔
      ∀ o ∈ os, ∀ e, σ.lookup o.name = some e → e.OfKind o.kind := by
  rw [firstMisfit, List.findSome?_eq_none_iff]
  exact forall₂_congr fun _ _ => misfit_eq_none_iff

/-- An error is that of an occurrence, and tells its replacement. -/
theorem exists_of_firstMisfit {err : SubstError} (h : σ.firstMisfit os = some err) :
    ∃ o ∈ os, ∃ e, σ.lookup o.name = some e ∧
      ((o.kind = .map ∧ err = .scalarForMap e) ∨
        (o.kind = .integer ∧ ∃ v, e = .map v ∧ err = .mapForScalar v)) := by
  obtain ⟨o, ho, hmisfit⟩ := List.exists_of_findSome?_eq_some h
  refine ⟨o, ho, ?_⟩
  cases hlookup : σ.lookup o.name with
  | none =>
    rw [misfit_of_lookup_none hlookup] at hmisfit
    cases hmisfit
  | some e =>
    rw [misfit, replacement_of_lookup hlookup] at hmisfit
    exact ⟨e, rfl, Expr.eq_of_misfit hmisfit⟩

end Substitution

/-- A substitution in a well-kinded node succeeds exactly if the replacement of every free
occurrence of a name is of the kind that is asked for there; the occurrences are those of the free
names. If it fails, then the error tells a replacement that is not of its kind. That bound variables
are renamed is never a reason. -/
theorem Node.subst_ok_iff {n : Node} (h : n.wellKinded = true) (σ : Substitution) :
    n.occurrences.map Occurrence.name = n.freeNames ∧
      ((∃ n', n.subst σ = .ok n') ↔
        ∀ o ∈ n.occurrences, ∀ e, σ.lookup o.name = some e → e.OfKind o.kind) ∧
      ∀ err, n.subst σ = .error err →
        ∃ o ∈ n.occurrences, ∃ e, σ.lookup o.name = some e ∧
          ((o.kind = .map ∧ err = .scalarForMap e) ∨
            (o.kind = .integer ∧ ∃ v, e = .map v ∧ err = .mapForScalar v)) := by
  have herror := n.errorOf_subst h σ
  refine ⟨n.names_occurrences, ?_, ?_⟩
  · rw [← errorOf_eq_none_iff, herror, Substitution.firstMisfit_eq_none_iff]
  · intro err hfail
    rw [hfail] at herror
    exact Substitution.exists_of_firstMisfit herror.symm

/-- A map with a stored element is welcome where an element is selected from it and as an argument,
although the bound variable has to be renamed. It is not welcome in a comparison. -/
theorem storedMap_subst :
    let σ : Substitution :=
      ⟨[("a", .map (.store (.name "a") (.name "k") (.int (.const 0))))]⟩
    let above (e : IntExpr) : Node := .predicate (.quant .all "k" (.const true)
      (.comp .le (.var (.select (.name "a") (.name "k"))) e))
    ((above (.call "f" [.name "a"])).wellKinded = true ∧
        ∃ n', (above (.call "f" [.name "a"])).subst σ = .ok n') ∧
      (above (.name "a")).wellKinded = true ∧ ¬ ∃ n', (above (.name "a")).subst σ = .ok n' := by
  intro σ above
  have hcall : (above (.call "f" [.name "a"])).wellKinded = true := by decide +kernel
  have hname : (above (.name "a")).wellKinded = true := by decide +kernel
  have hfit : σ.firstMisfit (above (.call "f" [.name "a"])).occurrences = none := by
    decide +kernel
  have hmisfit : σ.firstMisfit (above (.name "a")).occurrences ≠ none := by decide +kernel
  rw [Ne, Substitution.firstMisfit_eq_none_iff] at hmisfit
  rw [Substitution.firstMisfit_eq_none_iff] at hfit
  exact ⟨⟨hcall, (Node.subst_ok_iff hcall σ).2.1.mpr hfit⟩, hname,
    fun hok => hmisfit ((Node.subst_ok_iff hname σ).2.1.mp hok)⟩

/-- A name that is a whole expression may become a map with a stored element, although it is used as
an integer and the map would not be welcome if the integer were part of something else. -/
theorem wholeName_subst :
    let stored : Expr := .map (.store (.name "a") (.name "i") (.int (.const 0)))
    let σ : Substitution := .single "a" stored
    let a : IntExpr := .name "a"
    (Node.expr (.int a)).wellKinded = true ∧ (Node.expr (.int a)).subst σ = .ok (.expr stored) ∧
      ¬ ∀ o ∈ (Node.int a).occurrences, ∀ e, σ.lookup o.name = some e → e.OfKind o.kind := by
  intro stored σ a
  have hsubst : (Expr.int a).subst σ = .ok stored := by decide +kernel
  have hmisfit : σ.firstMisfit (Node.int a).occurrences ≠ none := by decide +kernel
  rw [Ne, Substitution.firstMisfit_eq_none_iff] at hmisfit
  refine ⟨by decide +kernel, ?_, hmisfit⟩
  simp only [Node.subst, hsubst]
  rfl

end GuardedCommand
