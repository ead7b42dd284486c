import GuardedCommand.Proofs.ExpansionRules

/-! # Calls in formulas

Which relations and functions a formula calls. Substitution moves calls around but invents none:
what is called afterwards is called in the formula or in a replacement. Expansion trades the call of
a shorthand for the calls of its body, and does nothing at all to a formula that calls no shorthand.

* `Predicate.callees` and its companions: what is called.
* `Node.CallsOnly`: everything that is called has a property.
* `Node.Becomes.callsOnly`: the calls after a substitution.
* `Shorthands.Yields`, `Node.Expands.callsOnly`: the calls after an expansion.
* `Shorthands.predicate_of_unresolved`, `Shorthands.int_of_unresolved`: where nothing is left to
  expand.
-/

namespace GuardedCommand

/-! ## What is called -/

mutual

/-- What is called in a variable. -/
def Variable.callees : Variable → List Callee
  | .name _ => []
  | .select b i => b.callees ++ i.callees
  | .store b i e => b.callees ++ i.callees ++ e.callees

/-- What is called in an expression. -/
def Expr.callees : Expr → List Callee
  | .map v => v.callees
  | .int e => e.callees

/-- What is called in an integer expression. -/
def IntExpr.callees : IntExpr → List Callee
  | .const _ => []
  | .var v => v.callees
  | .negate e => e.callees
  | .binary _ l r => l.callees ++ r.callees
  | .call f args => .function f :: Expr.calleesAll args
  | .fold _ _ c e => c.callees ++ e.callees
  | .count _ c p => c.callees ++ p.callees

/-- What is called in a predicate. -/
def Predicate.callees : Predicate → List Callee
  | .const _ => []
  | .not p => p.callees
  | .binary _ l r => l.callees ++ r.callees
  | .comp _ l r => l.callees ++ r.callees
  | .call f args => .relation f :: Expr.calleesAll args
  | .perm a b n => a.callees ++ b.callees ++ n.callees
  | .quant _ _ c p => c.callees ++ p.callees

/-- What is called in some arguments. -/
def Expr.calleesAll : List Expr → List Callee
  | [] => []
  | e :: es => e.callees ++ Expr.calleesAll es

end

namespace Node

/-- What is called in a node. -/
def callees : Node → List Callee
  | .predicate p => p.callees
  | .int e => e.callees
  | .var v => v.callees
  | .expr e => e.callees

/-- Everything that a node calls satisfies `P`. -/
def CallsOnly (P : Callee → Prop) (n : Node) : Prop :=
  ∀ c ∈ n.callees, P c

end Node

/-- What is called in the body of a shorthand. -/
def ShorthandBody.callees (b : ShorthandBody) : List Callee :=
  b.node.callees

namespace Expr

variable {P Q : Callee → Prop} {e : Expr} {es es' : List Expr}

/-- What is called in arguments is called in one of them. -/
theorem mem_calleesAll {c : Callee} : c ∈ calleesAll es ↔ ∃ e ∈ es, c ∈ e.callees := by
  induction es with
  | nil => simp [calleesAll]
  | cons e es ih => simp [calleesAll, ih]

/-- An expression used as a map calls what it did. -/
theorem callees_of_toMap {v : Variable} (h : e.toMap = .ok v) : v.callees = e.callees := by
  unfold toMap asVariable at h
  split at h
  · next hv =>
    split at hv <;> cases hv <;> cases h <;> rfl
  · cases h

/-- An expression used as an integer calls what it did. -/
theorem callees_of_toInt {d : IntExpr} (h : e.toInt = .ok d) : d.callees = e.callees := by
  unfold toInt at h
  split at h <;> cases h <;> rfl

/-- An expression used as an argument calls what it did. -/
theorem callees_toArgument (e : Expr) : e.toArgument.callees = e.callees := by
  unfold toArgument
  split <;> rfl

/-- Arguments that are changed one by one. -/
theorem forall_calleesAll_of_zip (hlength : es.length = es'.length)
    (h : ∀ a ∈ es.zip es', (∀ c ∈ a.1.callees, P c) → ∀ c ∈ a.2.callees, Q c)
    (hes : ∀ c ∈ calleesAll es, P c) : ∀ c ∈ calleesAll es', Q c := by
  induction es generalizing es' with
  | nil =>
    obtain rfl := List.length_eq_zero_iff.mp hlength.symm
    exact List.forall_mem_nil _
  | cons e es ih =>
    cases es' with
    | nil => cases hlength
    | cons e' es' =>
      rw [List.zip_cons_cons, List.forall_mem_cons] at h
      rw [calleesAll, List.forall_mem_append] at hes ⊢
      exact ⟨h.1 hes.1, ih (Nat.succ.inj hlength) h.2 hes.2⟩

end Expr

/-! ## Calls after a substitution -/

namespace Substitution

variable {P : Callee → Prop} {σ τ : Substitution} {k k' : String} {parts : List String}

/-- Everything that a replacement calls satisfies `P`. -/
def CallsOnly (P : Callee → Prop) (σ : Substitution) : Prop :=
  ∀ pair ∈ σ.pairs, ∀ c ∈ pair.2.callees, P c

/-- What a name becomes calls no more than the replacements do. -/
theorem CallsOnly.replacement (h : σ.CallsOnly P) (x : String) :
    ∀ c ∈ (σ.replacement x).callees, P c := by
  cases hx : σ.lookup x with
  | none =>
    rw [replacement_of_lookup_none hx]
    exact List.forall_mem_nil _
  | some e =>
    rw [replacement_of_lookup hx]
    exact h (x, e) (mem_pairs_of_lookup hx)

/-- Below a binder there are the same replacements, and perhaps a name for the bound variable. -/
theorem CallsOnly.below (h : σ.CallsOnly P) (hk : σ.Below k parts k' τ) : τ.CallsOnly P := by
  have hhide : (σ.hide k).CallsOnly P := fun pair hpair => h pair (List.mem_of_mem_filter hpair)
  cases hk with
  | kept => exact hhide
  | renamed =>
    refine List.forall_mem_append.mpr ⟨hhide, ?_⟩
    rw [List.forall_mem_singleton]
    exact List.forall_mem_nil _

end Substitution

/-- What is called after a substitution is called before it, or in a replacement. -/
theorem Node.Becomes.callsOnly {P : Callee → Prop} {σ : Substitution} {n n' : Node}
    (h : n.Becomes σ n') (hσ : σ.CallsOnly P) (hn : n.CallsOnly P) : n'.CallsOnly P := by
  unfold Node.CallsOnly at hn ⊢
  -- A replacement brings in calls of its own, and these are asked for in `hσ`.
  induction h with
  | name x => exact hσ.replacement x
  | select _ hv _ ihb ihi =>
    simp only [Node.callees, Variable.callees, Expr.callees, List.forall_mem_append,
      Expr.callees_of_toMap hv] at hn ihb ihi ⊢
    exact ⟨ihb hσ hn.1, ihi hσ hn.2⟩
  | store _ hv _ _ ihb ihi ihe =>
    simp only [Node.callees, Variable.callees, Expr.callees, List.forall_mem_append,
      Expr.callees_of_toMap hv] at hn ihb ihi ihe ⊢
    exact ⟨⟨ihb hσ hn.1.1, ihi hσ hn.1.2⟩, ihe hσ hn.2⟩
  | map _ ih => exact ih hσ hn
  | argument x =>
    simp only [Node.callees, Expr.callees_toArgument]
    exact hσ.replacement x
  | int _ _ ih => exact ih hσ hn
  | const | truth => exact List.forall_mem_nil _
  | var _ he ih =>
    simp only [Node.callees, IntExpr.callees, Expr.callees_of_toInt he] at hn ih ⊢
    exact ih hσ hn
  | negate _ ih | not _ ih => exact ih hσ hn
  | arith _ _ ihl ihr | connective _ _ ihl ihr | comp _ _ ihl ihr =>
    simp only [Node.callees, IntExpr.callees, Predicate.callees, List.forall_mem_append] at hn ⊢
    exact ⟨ihl hσ hn.1, ihr hσ hn.2⟩
  | function hlength _ ih | relation hlength _ ih =>
    simp only [Node.callees, IntExpr.callees, Predicate.callees, List.forall_mem_cons] at hn ⊢
    exact ⟨hn.1, Expr.forall_calleesAll_of_zip hlength (fun a ha => ih a ha hσ) hn.2⟩
  | fold hk _ _ ihc ihe | count hk _ _ ihc ihe | quant hk _ _ ihc ihe =>
    simp only [Node.callees, IntExpr.callees, Predicate.callees, List.forall_mem_append] at hn ⊢
    exact ⟨ihc (hσ.below hk) hn.1, ihe (hσ.below hk) hn.2⟩
  | intSame | predicateSame => exact hn
  | perm _ hv _ hw _ iha ihb ihn =>
    simp only [Node.callees, Predicate.callees, List.forall_mem_append, Expr.callees_of_toMap hv,
      Expr.callees_of_toMap hw] at hn iha ihb ihn ⊢
    exact ⟨⟨iha hσ hn.1.1, ihb hσ hn.1.2⟩, ihn hσ hn.2⟩

/-! ## Calls after an expansion -/

/-- What stands for a call of `c` after expansion calls only what satisfies `P`: the call is kept
and satisfies `P`, or a body takes its place that calls nothing else. -/
def Shorthands.Yields (table : Shorthands) (P : Callee → Prop) (c : Callee) : Prop :=
  (table.resolve? c = none → P c) ∧
    ∀ s, table.resolve? c = some s → ∀ d ∈ s.body.callees, P d

/-- A body with arguments in it calls what the body and the arguments call. -/
theorem Node.Becomes.callsOnly_of_body {P : Callee → Prop} {s : Shorthand} {args : List Expr}
    {n' : Node} (h : s.body.node.Becomes ⟨s.params.zip args⟩ n')
    (hargs : ∀ c ∈ Expr.calleesAll args, P c) (hbody : ∀ c ∈ s.body.callees, P c) :
    n'.CallsOnly P := by
  refine h.callsOnly (fun pair hpair c hc => ?_) hbody
  exact hargs c (Expr.mem_calleesAll.mpr ⟨pair.2, (List.of_mem_zip hpair).2, hc⟩)

/-- What is called after an expansion stands for something that is called before it. -/
theorem Node.Expands.callsOnly {P : Callee → Prop} {table : Shorthands} {n n' : Node}
    (h : n.Expands table n') (hn : n.CallsOnly (table.Yields P)) : n'.CallsOnly P := by
  unfold Node.CallsOnly at hn ⊢
  induction h with
  | name | const | truth => exact List.forall_mem_nil _
  | select _ _ ihb ihi =>
    simp only [Node.callees, Variable.callees, List.forall_mem_append] at hn ⊢
    exact ⟨ihb hn.1, ihi hn.2⟩
  | store _ _ _ ihb ihi ihe =>
    simp only [Node.callees, Variable.callees, List.forall_mem_append] at hn ⊢
    exact ⟨⟨ihb hn.1.1, ihi hn.1.2⟩, ihe hn.2⟩
  | map _ ih | int _ ih | var _ ih | negate _ ih | not _ ih => exact ih hn
  | arith _ _ ihl ihr | connective _ _ ihl ihr | comp _ _ ihl ihr =>
    simp only [Node.callees, IntExpr.callees, Predicate.callees, List.forall_mem_append] at hn ⊢
    exact ⟨ihl hn.1, ihr hn.2⟩
  | function hf hlength _ ih | relation hf hlength _ ih =>
    simp only [Node.callees, IntExpr.callees, Predicate.callees, List.forall_mem_cons] at hn ⊢
    exact ⟨hn.1.1 hf, Expr.forall_calleesAll_of_zip hlength ih hn.2⟩
  | functionBody hs hbody hlength _ _ hbecomes ih | relationBody hs hbody hlength _ _ hbecomes ih =>
    simp only [Node.callees, IntExpr.callees, Predicate.callees, List.forall_mem_cons] at hn
    -- the call itself is gone: its arguments, expanded, stand in the body
    have hargs := Expr.forall_calleesAll_of_zip hlength ih hn.2
    refine Node.Becomes.callsOnly_of_body ?_ hargs (hn.1.2 _ hs)
    rw [hbody]
    exact hbecomes
  | fold _ _ ihc ihe | count _ _ ihc ihe | quant _ _ ihc ihe =>
    simp only [Node.callees, IntExpr.callees, Predicate.callees, List.forall_mem_append] at hn ⊢
    exact ⟨ihc hn.1, ihe hn.2⟩
  | perm _ _ _ iha ihb ihn =>
    simp only [Node.callees, Predicate.callees, List.forall_mem_append] at hn ⊢
    exact ⟨⟨iha hn.1.1, ihb hn.1.2⟩, ihn hn.2⟩

/-! ## Nothing to expand -/

namespace Shorthands

variable {table : Shorthands}

mutual

/-- A variable without calls of shorthands is expanded to itself. -/
theorem var_of_unresolved : ∀ (v : Variable), (∀ c ∈ v.callees, table.resolve? c = none) →
    table.var v = .ok v
  | .name x, _ => by
    rw [var]
  | .select b i, h => by
    rw [Variable.callees, List.forall_mem_append] at h
    rw [var, var_of_unresolved b h.1, int_of_unresolved i h.2]
    rfl
  | .store b i e, h => by
    rw [Variable.callees, List.forall_mem_append, List.forall_mem_append] at h
    rw [var, var_of_unresolved b h.1.1, int_of_unresolved i h.1.2, expr_of_unresolved e h.2]
    rfl

/-- An expression without calls of shorthands is expanded to itself. -/
theorem expr_of_unresolved : ∀ (e : Expr), (∀ c ∈ e.callees, table.resolve? c = none) →
    table.expr e = .ok e
  | .map v, h => by
    rw [Expr.callees] at h
    rw [expr, var_of_unresolved v h]
    rfl
  | .int e, h => by
    rw [Expr.callees] at h
    rw [expr, int_of_unresolved e h]
    rfl

/-- An integer expression that calls no shorthand stays as it is. -/
theorem int_of_unresolved : ∀ (e : IntExpr), (∀ c ∈ e.callees, table.resolve? c = none) →
    table.int e = .ok e
  | .const c, _ => by
    rw [int]
  | .var v, h => by
    rw [IntExpr.callees] at h
    rw [int, var_of_unresolved v h]
    rfl
  | .negate e, h => by
    rw [IntExpr.callees] at h
    rw [int, int_of_unresolved e h]
    rfl
  | .binary op l r, h => by
    rw [IntExpr.callees, List.forall_mem_append] at h
    rw [int, int_of_unresolved l h.1, int_of_unresolved r h.2]
    rfl
  | .call f args, h => by
    rw [IntExpr.callees, List.forall_mem_cons] at h
    rw [int, exprs_of_unresolved args h.2]
    exact callInt_of_none h.1
  | .fold op k c e, h => by
    rw [IntExpr.callees, List.forall_mem_append] at h
    rw [int, predicate_of_unresolved c h.1, int_of_unresolved e h.2]
    rfl
  | .count k c p, h => by
    rw [IntExpr.callees, List.forall_mem_append] at h
    rw [int, predicate_of_unresolved c h.1, predicate_of_unresolved p h.2]
    rfl

/-- A predicate that calls no shorthand stays as it is. -/
theorem predicate_of_unresolved : ∀ (p : Predicate), (∀ c ∈ p.callees, table.resolve? c = none) →
    table.predicate p = .ok p
  | .const b, _ => by
    rw [predicate]
  | .not p, h => by
    rw [Predicate.callees] at h
    rw [predicate, predicate_of_unresolved p h]
    rfl
  | .binary op l r, h => by
    rw [Predicate.callees, List.forall_mem_append] at h
    rw [predicate, predicate_of_unresolved l h.1, predicate_of_unresolved r h.2]
    rfl
  | .comp op l r, h => by
    rw [Predicate.callees, List.forall_mem_append] at h
    rw [predicate, int_of_unresolved l h.1, int_of_unresolved r h.2]
    rfl
  | .call f args, h => by
    rw [Predicate.callees, List.forall_mem_cons] at h
    rw [predicate, exprs_of_unresolved args h.2]
    exact callPredicate_of_none h.1
  | .perm a b n, h => by
    rw [Predicate.callees, List.forall_mem_append, List.forall_mem_append] at h
    rw [predicate, var_of_unresolved a h.1.1, var_of_unresolved b h.1.2, int_of_unresolved n h.2]
    rfl
  | .quant q k c p, h => by
    rw [Predicate.callees, List.forall_mem_append] at h
    rw [predicate, predicate_of_unresolved c h.1, predicate_of_unresolved p h.2]
    rfl

/-- Arguments without calls of shorthands are expanded to themselves. -/
theorem exprs_of_unresolved : ∀ (es : List Expr),
    (∀ c ∈ Expr.calleesAll es, table.resolve? c = none) → table.exprs es = .ok es
  | [], _ => by
    rw [exprs]
  | e :: es, h => by
    rw [Expr.calleesAll, List.forall_mem_append] at h
    rw [exprs, expr_of_unresolved e h.1, exprs_of_unresolved es h.2]
    rfl

end

end Shorthands

end GuardedCommand
