import GuardedCommand.Proofs.Interchange
import GuardedCommand.Proofs.Substitution
import GuardedCommand.Shorthand.Define
import Mathlib.Data.List.Forall2
import Mathlib.Data.List.Permutation

/-! # Meaning of shorthands

The call of a shorthand stands for its body with the arguments for the parameters. If an
interpretation reads all calls that way, expanding them changes the meaning of nothing, and neither
does the expansion of the bodies into each other when shorthands are defined. This holds for
shorthands that refer to themselves as well.

* `Shorthands.InterpretedBy`: calls are read as the bodies of the definitions.
* `Predicate.Equivalent`, …, `Program.Equivalent`: formulas, specifications and programs that say
  the same in all states, part by part.
* `Shorthands.predicate_equivalent` and its companions: expansion with any table that is read as its
  bodies.
* `Shorthands.rounds_equivalent`: rounds of expansion keep what the bodies mean.
* `Shorthands.equivalent_of_define`: expansion with defined shorthands.
-/

namespace GuardedCommand

variable {I : Interpretation}

/-! ## What calls stand for -/

/-- The state `s` with the parameters standing for given values; of several values for one parameter
the first counts. -/
def bindParameters (params : List String) (vs : List Value) (s : State) : State := fun x =>
  ((params.zip vs).lookup x).getD (s x)

/-- A call of `f` on some values, in a place for the kind of the body, means what the body means in
a state. -/
def ShorthandBody.IsMeantBy (I : Interpretation) (f : String) (vs : List Value) (s : State) :
    ShorthandBody → Prop
  | .predicate p => I.relation f vs ↔ p.Holds I s
  | .int e => I.function f vs = e.value I s

/-- A call of a shorthand means what its body means where the parameters are the arguments. All
other names are `0` there. -/
def Shorthand.InterpretedBy (I : Interpretation) (d : Shorthand) : Prop :=
  ∀ vs : List Value, vs.length = d.params.length →
    d.body.IsMeantBy I d.name vs (bindParameters d.params vs fun _ => .int 0)

/-- Calls are read as the bodies of the shorthands that count. -/
def Shorthands.InterpretedBy (I : Interpretation) (table : Shorthands) : Prop :=
  ∀ f d, table.find? f = some d → d.InterpretedBy I

/-- Calls are read as bodies, whatever the other names are. -/
def Shorthands.InterpretedIn (I : Interpretation) (table : Shorthands) : Prop :=
  ∀ f d, table.find? f = some d → ∀ vs : List Value, vs.length = d.params.length →
    ∀ s, d.body.IsMeantBy I f vs (bindParameters d.params vs s)

/-! ## Formulas that say the same -/

/-- Two predicates hold in the same states. -/
def Predicate.Equivalent (I : Interpretation) (p q : Predicate) : Prop :=
  ∀ s, p.Holds I s ↔ q.Holds I s

/-- Two integer expressions have the same value in all states. -/
def IntExpr.Equivalent (I : Interpretation) (d e : IntExpr) : Prop :=
  ∀ s, d.value I s = e.value I s

/-- Two expressions have the same value in all states. -/
def Expr.Equivalent (I : Interpretation) (d e : Expr) : Prop :=
  ∀ s, d.value I s = e.value I s

/-- Two variables have the same name, and the same selectors and stored values in all states. -/
inductive Variable.Equivalent (I : Interpretation) : Variable → Variable → Prop where
  | name (x : String) : Variable.Equivalent I (.name x) (.name x)
  | select {b c i j} (hbase : Variable.Equivalent I b c) (hselector : i.Equivalent I j) :
    Variable.Equivalent I (.select b i) (.select c j)
  | store {b c i j d e} (hbase : Variable.Equivalent I b c) (hselector : i.Equivalent I j)
    (hvalue : d.Equivalent I e) : Variable.Equivalent I (.store b i d) (.store c j e)

/-- Two bodies are of one kind and mean the same in all states. -/
def ShorthandBody.Equivalent (I : Interpretation) : ShorthandBody → ShorthandBody → Prop
  | .predicate p, .predicate q => p.Equivalent I q
  | .int d, .int e => d.Equivalent I e
  | _, _ => False

/-- Two shorthands have the same name and parameters and bodies that mean the same. -/
structure Shorthand.Equivalent (I : Interpretation) (c d : Shorthand) : Prop where
  /-- The same name. -/
  name : c.name = d.name
  /-- The same parameters. -/
  params : c.params = d.params
  /-- Bodies of one meaning. -/
  body : c.body.Equivalent I d.body

/-- The invariants and the bounds of two loops mean the same. -/
structure LoopSpec.Equivalent (I : Interpretation) (l m : LoopSpec) : Prop where
  /-- Invariants that hold in the same states. -/
  invariant : l.invariant.Equivalent I m.invariant
  /-- Bounds of the same value. -/
  bound : l.bound.Equivalent I m.bound

/-- All predicates and bounds of two specifications mean the same. -/
structure Spec.Equivalent (I : Interpretation) (c d : Spec) : Prop where
  /-- Preconditions that hold in the same states. -/
  precondition : c.precondition.Equivalent I d.precondition
  /-- Postconditions that hold in the same states. -/
  postcondition : c.postcondition.Equivalent I d.postcondition
  /-- Loops with the same specifications. -/
  loops : List.Forall₂ (LoopSpec.Equivalent I) c.loops d.loops

/-- Two assignments write the same values to the same places. -/
structure Assign.Equivalent (I : Interpretation) (a b : Assign) : Prop where
  /-- Targets with the same names and selectors. -/
  lvalues : List.Forall₂ (Variable.Equivalent I) a.lvalues b.lvalues
  /-- The same values. -/
  rvalues : List.Forall₂ (Expr.Equivalent I) a.rvalues b.rvalues
  /-- The same text. -/
  range : a.range = b.range

/-- Two statements are built alike from guards and assignments that mean the same. -/
inductive Statement.Equivalent (I : Interpretation) : Statement → Statement → Prop where
  | abort (r : TextRange) : Statement.Equivalent I (.abort r) (.abort r)
  | skip (r : TextRange) : Statement.Equivalent I (.skip r) (.skip r)
  | assign {a b} (h : a.Equivalent I b) : Statement.Equivalent I (.assign a) (.assign b)
  | cond {gs hs bs cs} (r : TextRange) (hguards : List.Forall₂ (Predicate.Equivalent I) gs hs)
    (hbodies : List.Forall₂ (List.Forall₂ (Statement.Equivalent I)) bs cs) :
    Statement.Equivalent I (.cond gs bs r) (.cond hs cs r)
  | loop {gs hs bs cs} (r : TextRange) (hguards : List.Forall₂ (Predicate.Equivalent I) gs hs)
    (hbodies : List.Forall₂ (List.Forall₂ (Statement.Equivalent I)) bs cs) :
    Statement.Equivalent I (.loop gs bs r) (.loop hs cs r)

/-- Two programs are built alike from statements that mean the same. -/
def Program.Equivalent (I : Interpretation) (p q : Program) : Prop :=
  List.Forall₂ (Statement.Equivalent I) p.statements q.statements

/-- Equivalent variables have the same value. -/
theorem Variable.Equivalent.value_eq {v w : Variable} (h : v.Equivalent I w) (s : State) :
    v.value I s = w.value I s := by
  induction h with
  | name x => rfl
  | select _ hi ih =>
    simp only [Variable.value]
    rw [ih, hi s]
  | store _ hi he ih =>
    simp only [Variable.value]
    rw [ih, hi s, he s]

/-- A body is equivalent to itself. -/
theorem ShorthandBody.Equivalent.refl : ∀ b : ShorthandBody, b.Equivalent I b
  | .predicate _ => fun _ => Iff.rfl
  | .int _ => fun _ => rfl

/-- Equivalence of bodies is transitive. -/
theorem ShorthandBody.Equivalent.trans {a b c : ShorthandBody} (hab : a.Equivalent I b)
    (hbc : b.Equivalent I c) : a.Equivalent I c := by
  match a, b, c, hab, hbc with
  | .predicate _, .predicate _, .predicate _, hab, hbc => exact fun s => (hab s).trans (hbc s)
  | .int _, .int _, .int _, hab, hbc => exact fun s => (hab s).trans (hbc s)

/-- Equivalence of shorthands is transitive. -/
theorem Shorthand.Equivalent.trans {a b c : Shorthand} (hab : a.Equivalent I b)
    (hbc : b.Equivalent I c) : a.Equivalent I c :=
  ⟨hab.name.trans hbc.name, hab.params.trans hbc.params, hab.body.trans hbc.body⟩

/-- Equivalence of lists of shorthands is transitive. -/
theorem Shorthand.forall₂_equivalent_trans {as bs cs : List Shorthand}
    (hab : List.Forall₂ (Shorthand.Equivalent I) as bs)
    (hbc : List.Forall₂ (Shorthand.Equivalent I) bs cs) :
    List.Forall₂ (Shorthand.Equivalent I) as cs := by
  induction hab generalizing cs with
  | nil => exact hbc
  | cons hab _ ih =>
    cases hbc with
    | cons hbc htail => exact .cons (hab.trans hbc) (ih htail)

/-- A body that means the same is meant by the same calls. -/
theorem ShorthandBody.IsMeantBy.of_equivalent {b c : ShorthandBody} {f : String} {vs : List Value}
    {s : State} (h : b.IsMeantBy I f vs s) (hbc : b.Equivalent I c) : c.IsMeantBy I f vs s := by
  match b, c, h, hbc with
  | .predicate _, .predicate _, h, hbc => exact Iff.trans h (hbc s)
  | .int _, .int _, h, hbc => exact Eq.trans h (hbc s)

/-! ## Lists of results -/

/-- What a computation gives for the items of a list, one after the other. -/
theorem forall₂_of_mapM_eq_ok {ε α β : Type} {f : α → Except ε β} {as : List α} {bs : List β}
    (h : as.mapM f = .ok bs) : List.Forall₂ (fun a b => f a = .ok b) as bs := by
  induction as generalizing bs with
  | nil =>
    cases h
    exact .nil
  | cons a as ih =>
    rw [List.mapM_cons] at h
    obtain ⟨b, hb, h⟩ := exists_of_bind_eq_ok h
    obtain ⟨cs, hcs, h⟩ := exists_of_bind_eq_ok h
    cases h
    exact .cons hb (ih hcs)

/-- Every element of the second list has a partner. -/
theorem exists_of_forall₂_right {α β : Type} {R : α → β → Prop} {as : List α} {bs : List β}
    (h : List.Forall₂ R as bs) {b : β} (hb : b ∈ bs) : ∃ a, R a b := by
  induction h with
  | nil => cases hb
  | cons hab _ ih =>
    rcases List.mem_cons.mp hb with rfl | hb
    · exact ⟨_, hab⟩
    · exact ih hb

/-! ## Arguments -/

/-- There are as many values as arguments. -/
theorem Expr.length_valueAll (args : List Expr) (s : State) :
    (Expr.valueAll I args s).length = args.length := by
  induction args with
  | nil => simp only [Expr.valueAll, List.length_nil]
  | cons e es ih => simp only [Expr.valueAll, List.length_cons, ih]

/-- A parameter that is replaced by its argument is bound to the value of the argument. -/
theorem lookup_zip_valueAll (params : List String) (args : List Expr) (s : State) (x : String) :
    (params.zip (Expr.valueAll I args s)).lookup x =
      ((params.zip args).lookup x).map fun e => e.value I s := by
  induction params generalizing args with
  | nil => rfl
  | cons p params ih =>
    cases args with
    | nil => simp only [Expr.valueAll, List.zip_nil_right, List.lookup_nil, Option.map_none]
    | cons e es =>
      rw [Expr.valueAll, List.zip_cons_cons, List.zip_cons_cons, List.lookup_cons, List.lookup_cons]
      by_cases hx : x = p
      · subst hx
        rw [beq_self_eq_true]
        rfl
      · rw [beq_false_of_ne hx, ih es]

/-- The parameters of a call are read as names, one by one. -/
theorem mapM_zip_names {f : Variable × Expr → Except SubstError (String × Expr)}
    (hf : ∀ x e, f (.name x, e) = .ok (x, e)) (params : List String) (args : List Expr) :
    ((params.map Variable.name).zip args).mapM f = .ok (params.zip args) := by
  induction params generalizing args with
  | nil => rfl
  | cons p params ih =>
    cases args with
    | nil => rfl
    | cons e es =>
      rw [List.map_cons, List.zip_cons_cons, List.mapM_cons, hf, ih]
      rfl

namespace Shorthand

variable {s : Shorthand} {args : List Expr} {σ : Substitution}

/-- Each parameter is replaced by the argument in its place. -/
theorem arguments_of_length (h : args.length = s.params.length) :
    s.arguments args = .ok ⟨s.params.zip args⟩ := by
  have htargets : Substitution.ofTargets (s.params.map Variable.name) args =
      .ok ⟨s.params.zip args⟩ := by
    rw [Substitution.ofTargets, if_neg (by simp [h]), mapM_zip_names fun _ _ => rfl]
    rfl
  rw [arguments, if_pos h, htargets]
  rfl

/-- The arguments of a call are as many as the parameters and replace them in order. -/
theorem eq_of_arguments (h : s.arguments args = .ok σ) :
    args.length = s.params.length ∧ σ = ⟨s.params.zip args⟩ := by
  by_cases hlength : args.length = s.params.length
  · rw [arguments_of_length hlength] at h
    exact ⟨hlength, (Except.ok.inj h).symm⟩
  · rw [arguments, if_neg hlength] at h
    cases h

end Shorthand

/-- The arguments of a call are as many as the parameters, and replacing the parameters by them
binds the parameters to their values. -/
theorem Shorthand.apply_of_arguments {d : Shorthand} {args : List Expr} {σ : Substitution}
    (h : d.arguments args = .ok σ) :
    args.length = d.params.length ∧
      ∀ s, σ.apply I s = bindParameters d.params (Expr.valueAll I args s) s := by
  obtain ⟨hlength, rfl⟩ := eq_of_arguments h
  refine ⟨hlength, fun s => ?_⟩
  funext x
  rw [bindParameters, lookup_zip_valueAll]
  -- a name that is no parameter is left alone
  cases hx : (d.params.zip args).lookup x with
  | none => exact Substitution.apply_of_lookup_none hx
  | some e => exact Substitution.apply_of_lookup hx

/-! ## Expansion -/

namespace Shorthands

variable {table : Shorthands}

/-- What stands for a call of a relation means what the call means. -/
theorem callPredicate_holds (hI : table.InterpretedIn I) {f : String} {args : List Expr}
    {p : Predicate} (h : table.callPredicate f args = .ok p) (s : State) :
    p.Holds I s ↔ I.relation f (Expr.valueAll I args s) := by
  unfold callPredicate at h
  split at h
  · next d hd =>
    split at h
    · next q hbody =>
      obtain ⟨σ, hσ, h⟩ := exists_of_bind_eq_ok h
      obtain ⟨hlength, happly⟩ := Shorthand.apply_of_arguments (I := I) hσ
      have hmeant := hI f d hd (Expr.valueAll I args s)
        (by rw [Expr.length_valueAll, hlength]) s
      rw [hbody, ← happly] at hmeant
      rw [Predicate.holds_subst (eq_ok_of_mapError_eq_ok h) s]
      exact hmeant.symm
    · -- an integer does not stand for a relation
      cases h
      simp only [Predicate.Holds]
  · cases h
    simp only [Predicate.Holds]

/-- What stands for a call of a function has the value of the call. -/
theorem callInt_value (hI : table.InterpretedIn I) {f : String} {args : List Expr} {e : IntExpr}
    (h : table.callInt f args = .ok e) (s : State) :
    e.value I s = I.function f (Expr.valueAll I args s) := by
  unfold callInt at h
  split at h
  · next d hd =>
    split at h
    · next q hbody =>
      obtain ⟨σ, hσ, h⟩ := exists_of_bind_eq_ok h
      obtain ⟨hlength, happly⟩ := Shorthand.apply_of_arguments (I := I) hσ
      have hmeant := hI f d hd (Expr.valueAll I args s)
        (by rw [Expr.length_valueAll, hlength]) s
      rw [hbody, ← happly] at hmeant
      rw [IntExpr.value_subst (eq_ok_of_mapError_eq_ok h) s]
      exact hmeant.symm
    · cases h
      simp only [IntExpr.value]
  · cases h
    simp only [IntExpr.value]

mutual

/-- Expansion keeps the name of a variable and what its selectors and stored values mean. -/
theorem var_equivalent (hI : table.InterpretedIn I) :
    ∀ (v : Variable) {v' : Variable}, table.var v = .ok v' → v.Equivalent I v'
  | .name x, v', h => by
    simp only [var] at h
    cases h
    exact .name x
  | .select b i, v', h => by
    simp only [var] at h
    obtain ⟨b', hb, h⟩ := exists_of_bind_eq_ok h
    obtain ⟨i', hi, h⟩ := exists_of_bind_eq_ok h
    cases h
    exact .select (var_equivalent hI b hb) (int_equivalent hI i hi)
  | .store b i e, v', h => by
    simp only [var] at h
    obtain ⟨b', hb, h⟩ := exists_of_bind_eq_ok h
    obtain ⟨i', hi, h⟩ := exists_of_bind_eq_ok h
    obtain ⟨e', he, h⟩ := exists_of_bind_eq_ok h
    cases h
    exact .store (var_equivalent hI b hb) (int_equivalent hI i hi) (expr_equivalent hI e he)

/-- Expansion keeps the value of an expression. -/
theorem expr_equivalent (hI : table.InterpretedIn I) :
    ∀ (e : Expr) {e' : Expr}, table.expr e = .ok e' → e.Equivalent I e'
  | .map v, e', h => by
    simp only [expr] at h
    obtain ⟨v', hv, h⟩ := exists_of_bind_eq_ok h
    cases h
    intro s
    simp only [Expr.value]
    exact (var_equivalent hI v hv).value_eq s
  | .int e, e', h => by
    simp only [expr] at h
    obtain ⟨d, hd, h⟩ := exists_of_bind_eq_ok h
    cases h
    intro s
    simp only [Expr.value]
    exact int_equivalent hI e hd s

/-- Expansion keeps the value of an integer expression. -/
theorem int_equivalent (hI : table.InterpretedIn I) :
    ∀ (e : IntExpr) {e' : IntExpr}, table.int e = .ok e' → e.Equivalent I e'
  | .const c, e', h => by
    simp only [int] at h
    cases h
    exact fun s => rfl
  | .var v, e', h => by
    simp only [int] at h
    obtain ⟨v', hv, h⟩ := exists_of_bind_eq_ok h
    cases h
    intro s
    simp only [IntExpr.value]
    exact (var_equivalent hI v hv).value_eq s
  | .negate e, e', h => by
    simp only [int] at h
    obtain ⟨d, hd, h⟩ := exists_of_bind_eq_ok h
    cases h
    intro s
    simp only [IntExpr.value]
    rw [int_equivalent hI e hd s]
  | .binary op l r, e', h => by
    simp only [int] at h
    obtain ⟨l', hl, h⟩ := exists_of_bind_eq_ok h
    obtain ⟨r', hr, h⟩ := exists_of_bind_eq_ok h
    cases h
    intro s
    simp only [IntExpr.value]
    rw [int_equivalent hI l hl s, int_equivalent hI r hr s]
  | .call f args, e', h => by
    simp only [int] at h
    obtain ⟨args', hargs, h⟩ := exists_of_bind_eq_ok h
    intro s
    -- the arguments are expanded first and keep their values
    rw [callInt_value hI h s, ← exprs_valueAll hI args hargs s, IntExpr.value]
  | .fold op k c e, e', h => by
    simp only [int] at h
    obtain ⟨c', hc, h⟩ := exists_of_bind_eq_ok h
    obtain ⟨d, hd, h⟩ := exists_of_bind_eq_ok h
    cases h
    intro s
    simp only [IntExpr.value]
    -- under the binder the parts mean the same in every state
    simp only [propext (predicate_equivalent hI c hc _), int_equivalent hI e hd _]
  | .count k c p, e', h => by
    simp only [int] at h
    obtain ⟨c', hc, h⟩ := exists_of_bind_eq_ok h
    obtain ⟨q, hq, h⟩ := exists_of_bind_eq_ok h
    cases h
    intro s
    simp only [IntExpr.value]
    simp only [propext (predicate_equivalent hI c hc _), propext (predicate_equivalent hI p hq _)]

/-- Expansion keeps what a predicate means. -/
theorem predicate_equivalent (hI : table.InterpretedIn I) :
    ∀ (p : Predicate) {p' : Predicate}, table.predicate p = .ok p' → p.Equivalent I p'
  | .const b, p', h => by
    simp only [predicate] at h
    cases h
    exact fun s => Iff.rfl
  | .not p, p', h => by
    simp only [predicate] at h
    obtain ⟨q, hq, h⟩ := exists_of_bind_eq_ok h
    cases h
    intro s
    simp only [Predicate.Holds]
    rw [predicate_equivalent hI p hq s]
  | .binary op l r, p', h => by
    simp only [predicate] at h
    obtain ⟨l', hl, h⟩ := exists_of_bind_eq_ok h
    obtain ⟨r', hr, h⟩ := exists_of_bind_eq_ok h
    cases h
    intro s
    simp only [Predicate.Holds]
    rw [propext (predicate_equivalent hI l hl s), propext (predicate_equivalent hI r hr s)]
  | .comp op l r, p', h => by
    simp only [predicate] at h
    obtain ⟨l', hl, h⟩ := exists_of_bind_eq_ok h
    obtain ⟨r', hr, h⟩ := exists_of_bind_eq_ok h
    cases h
    intro s
    simp only [Predicate.Holds]
    rw [int_equivalent hI l hl s, int_equivalent hI r hr s]
  | .call f args, p', h => by
    simp only [predicate] at h
    obtain ⟨args', hargs, h⟩ := exists_of_bind_eq_ok h
    intro s
    -- A call means what the interpretation says of it, and that is the body with the arguments.
    rw [callPredicate_holds hI h s, ← exprs_valueAll hI args hargs s, Predicate.Holds]
  | .perm a b n, p', h => by
    simp only [predicate] at h
    obtain ⟨a', ha, h⟩ := exists_of_bind_eq_ok h
    obtain ⟨b', hb, h⟩ := exists_of_bind_eq_ok h
    obtain ⟨n', hn, h⟩ := exists_of_bind_eq_ok h
    cases h
    intro s
    simp only [Predicate.Holds]
    rw [(var_equivalent hI a ha).value_eq s, (var_equivalent hI b hb).value_eq s,
      int_equivalent hI n hn s]
  | .quant q k c p, p', h => by
    simp only [predicate] at h
    obtain ⟨c', hc, h⟩ := exists_of_bind_eq_ok h
    obtain ⟨r, hr, h⟩ := exists_of_bind_eq_ok h
    cases h
    intro s
    simp only [Predicate.Holds]
    simp only [propext (predicate_equivalent hI c hc _), propext (predicate_equivalent hI p hr _)]

/-- Expansion keeps the values of arguments. -/
theorem exprs_valueAll (hI : table.InterpretedIn I) :
    ∀ (es : List Expr) {es' : List Expr}, table.exprs es = .ok es' →
      ∀ s, Expr.valueAll I es s = Expr.valueAll I es' s
  | [], es', h => by
    simp only [exprs] at h
    cases h
    exact fun s => rfl
  | e :: es, es', h => by
    simp only [exprs] at h
    obtain ⟨d, hd, h⟩ := exists_of_bind_eq_ok h
    obtain ⟨ds, hds, h⟩ := exists_of_bind_eq_ok h
    cases h
    intro s
    simp only [Expr.valueAll]
    rw [expr_equivalent hI e hd s, exprs_valueAll hI es hds s]

end

/-- Expansion keeps what a specification means. -/
theorem spec_equivalent (hI : table.InterpretedIn I) {c d : Spec} (h : table.spec c = .ok d) :
    c.Equivalent I d := by
  unfold spec at h
  obtain ⟨pre, hpre, h⟩ := exists_of_bind_eq_ok h
  obtain ⟨post, hpost, h⟩ := exists_of_bind_eq_ok h
  obtain ⟨loops, hloops, h⟩ := exists_of_bind_eq_ok h
  cases h
  refine ⟨predicate_equivalent hI _ hpre, predicate_equivalent hI _ hpost, ?_⟩
  refine (forall₂_of_mapM_eq_ok hloops).imp fun l m hl => ?_
  unfold loopSpec at hl
  obtain ⟨invariant, hinvariant, hl⟩ := exists_of_bind_eq_ok hl
  obtain ⟨bound, hbound, hl⟩ := exists_of_bind_eq_ok hl
  cases hl
  exact ⟨predicate_equivalent hI _ hinvariant, int_equivalent hI _ hbound⟩

/-- An expanded assignment is equivalent to the given one. -/
theorem assign_equivalent (hI : table.InterpretedIn I) {a b : Assign} (h : table.assign a = .ok b) :
    a.Equivalent I b := by
  unfold assign at h
  obtain ⟨lvalues, hlvalues, h⟩ := exists_of_bind_eq_ok h
  obtain ⟨rvalues, hrvalues, h⟩ := exists_of_bind_eq_ok h
  cases h
  exact ⟨(forall₂_of_mapM_eq_ok hlvalues).imp fun v _ hv => var_equivalent hI v hv,
    (forall₂_of_mapM_eq_ok hrvalues).imp fun e _ he => expr_equivalent hI e he, rfl⟩

/-- Expanded guards are equivalent to the given ones. -/
theorem guards_equivalent (hI : table.InterpretedIn I) {gs hs : List Predicate}
    (h : gs.mapM table.predicate = .ok hs) : List.Forall₂ (Predicate.Equivalent I) gs hs :=
  (forall₂_of_mapM_eq_ok h).imp fun g _ hg => predicate_equivalent hI g hg

mutual

/-- Expansion keeps what a statement says. -/
theorem statement_equivalent (hI : table.InterpretedIn I) :
    ∀ (a : Statement) {a' : Statement}, table.statement a = .ok a' → a.Equivalent I a'
  | .abort r, a', h => by
    simp only [statement] at h
    cases h
    exact .abort r
  | .skip r, a', h => by
    simp only [statement] at h
    cases h
    exact .skip r
  | .assign a, a', h => by
    simp only [statement] at h
    obtain ⟨b, hb, h⟩ := exists_of_bind_eq_ok h
    cases h
    exact .assign (assign_equivalent hI hb)
  | .cond guards bodies r, a', h => by
    simp only [statement] at h
    obtain ⟨gs, hgs, h⟩ := exists_of_bind_eq_ok h
    obtain ⟨bs, hbs, h⟩ := exists_of_bind_eq_ok h
    cases h
    exact .cond r (guards_equivalent hI hgs) (bodies_equivalent hI bodies hbs)
  | .loop guards bodies r, a', h => by
    simp only [statement] at h
    obtain ⟨gs, hgs, h⟩ := exists_of_bind_eq_ok h
    obtain ⟨bs, hbs, h⟩ := exists_of_bind_eq_ok h
    cases h
    exact .loop r (guards_equivalent hI hgs) (bodies_equivalent hI bodies hbs)

/-- Expansion keeps what a sequence of statements says. -/
theorem statements_equivalent (hI : table.InterpretedIn I) :
    ∀ (ss : List Statement) {ss' : List Statement}, table.statements ss = .ok ss' →
      List.Forall₂ (Statement.Equivalent I) ss ss'
  | [], ss', h => by
    simp only [statements] at h
    cases h
    exact .nil
  | a :: ss, ss', h => by
    simp only [statements] at h
    obtain ⟨b, hb, h⟩ := exists_of_bind_eq_ok h
    obtain ⟨bs, hbs, h⟩ := exists_of_bind_eq_ok h
    cases h
    exact .cons (statement_equivalent hI a hb) (statements_equivalent hI ss hbs)

/-- Expansion keeps what the bodies of a guarded command say. -/
theorem bodies_equivalent (hI : table.InterpretedIn I) :
    ∀ (bs : List (List Statement)) {bs' : List (List Statement)}, table.bodies bs = .ok bs' →
      List.Forall₂ (List.Forall₂ (Statement.Equivalent I)) bs bs'
  | [], bs', h => by
    simp only [bodies] at h
    cases h
    exact .nil
  | b :: bs, bs', h => by
    simp only [bodies] at h
    obtain ⟨c, hc, h⟩ := exists_of_bind_eq_ok h
    obtain ⟨cs, hcs, h⟩ := exists_of_bind_eq_ok h
    cases h
    exact .cons (statements_equivalent hI b hc) (bodies_equivalent hI bs hcs)

end

/-- Expansion keeps what a program says. -/
theorem program_equivalent (hI : table.InterpretedIn I) {p q : Program}
    (h : table.program p = .ok q) : p.Equivalent I q := by
  unfold program at h
  obtain ⟨ss, hss, h⟩ := exists_of_bind_eq_ok h
  cases h
  exact statements_equivalent hI p.statements hss

/-! ## Rounds of expansion -/

/-- A table of equivalent shorthands has an equivalent one for every name. -/
theorem exists_find?_of_forall₂ {cs ds : List Shorthand}
    (h : List.Forall₂ (Shorthand.Equivalent I) cs ds) {f : String} {d : Shorthand}
    (hd : find? ⟨ds⟩ f = some d) : ∃ c, find? ⟨cs⟩ f = some c ∧ c.Equivalent I d := by
  induction h with
  | nil => cases hd
  | @cons c d' cs ds hcd _ ih =>
    rw [find?, List.find?_cons] at hd ⊢
    rw [hcd.name]
    -- names are kept, so the first definition of a name stays the first
    by_cases hname : d'.name = f
    · rw [decide_eq_true hname] at hd ⊢
      cases hd
      exact ⟨c, rfl, hcd⟩
    · rw [decide_eq_false hname] at hd ⊢
      exact ih hd

/-- Calls that are read as bodies are read as equivalent bodies. -/
theorem InterpretedIn.of_forall₂ {cs ds : List Shorthand} (hI : InterpretedIn I ⟨cs⟩)
    (h : List.Forall₂ (Shorthand.Equivalent I) cs ds) : InterpretedIn I ⟨ds⟩ := by
  intro f d hd vs hvs s
  obtain ⟨c, hc, hcd⟩ := exists_find?_of_forall₂ h hd
  rw [← hcd.params] at hvs ⊢
  exact (hI f c hc vs hvs s).of_equivalent hcd.body

/-- A round of expansion gives equivalent bodies. -/
theorem round_equivalent {table' : Shorthands} (hI : table.InterpretedIn I)
    (h : table.round = .ok table') :
    List.Forall₂ (Shorthand.Equivalent I) table.defs table'.defs := by
  unfold round at h
  obtain ⟨ds, hds, h⟩ := exists_of_bind_eq_ok h
  cases h
  refine (forall₂_of_mapM_eq_ok hds).imp fun c d hd => ?_
  unfold shorthand at hd
  obtain ⟨body, hbody, hd⟩ := exists_of_bind_eq_ok hd
  cases hd
  refine ⟨rfl, rfl, ?_⟩
  cases hc : c.body with
  | predicate p =>
    rw [hc] at hbody
    obtain ⟨q, hq, hbody⟩ := exists_of_bind_eq_ok hbody
    cases hbody
    exact predicate_equivalent hI p hq
  | int e =>
    rw [hc] at hbody
    obtain ⟨e', he, hbody⟩ := exists_of_bind_eq_ok hbody
    cases hbody
    exact int_equivalent hI e he

/-- Any number of rounds gives equivalent bodies. -/
theorem rounds_equivalent {n : Nat} {table' : Shorthands} (hI : table.InterpretedIn I)
    (h : rounds n table = .ok table') :
    List.Forall₂ (Shorthand.Equivalent I) table.defs table'.defs := by
  induction n generalizing table with
  | zero =>
    cases h
    exact List.forall₂_same.mpr fun d _ => ⟨rfl, rfl, .refl d.body⟩
  | succ n ih =>
    -- the bodies that the next round starts from are read the same way
    obtain ⟨next, hnext, h⟩ := exists_of_bind_eq_ok h
    have hround := round_equivalent hI hnext
    have hrest := ih (hI.of_forall₂ hround) h
    exact Shorthand.forall₂_equivalent_trans hround hrest

end Shorthands

/-! ## Definitions -/

/-- No name is lost when repetitions are erased. -/
theorem mem_eraseReps_loop {x a : String} {xs ys : List String} :
    x ∈ List.eraseRepsBy.loop (· == ·) a xs ys ↔ x = a ∨ x ∈ xs ∨ x ∈ ys := by
  induction xs generalizing a ys with
  | nil =>
    show x ∈ (a :: ys).reverse ↔ _
    rw [List.mem_reverse, List.mem_cons]
    simp
  | cons b xs ih =>
    by_cases hab : a = b
    · -- a repeated name is dropped
      subst hab
      have hloop : List.eraseRepsBy.loop (· == ·) a (a :: xs) ys =
          List.eraseRepsBy.loop (· == ·) a xs ys := by
        show (match a == a with
          | true => List.eraseRepsBy.loop (· == ·) a xs ys
          | false => List.eraseRepsBy.loop (· == ·) a xs (a :: ys)) = _
        rw [beq_self_eq_true]
      rw [hloop, ih, List.mem_cons]
      tauto
    · have hloop : List.eraseRepsBy.loop (· == ·) a (b :: xs) ys =
          List.eraseRepsBy.loop (· == ·) b xs (a :: ys) := by
        show (match a == b with
          | true => List.eraseRepsBy.loop (· == ·) a xs ys
          | false => List.eraseRepsBy.loop (· == ·) b xs (a :: ys)) = _
        rw [beq_false_of_ne hab]
      rw [hloop, ih, List.mem_cons, List.mem_cons]
      tauto

/-- Sorting names and dropping repetitions keeps all of them. -/
theorem mem_sortedNames {x : String} {xs : List String} : x ∈ sortedNames xs ↔ x ∈ xs := by
  have herase : ∀ ys : List String, x ∈ ys.eraseReps ↔ x ∈ ys := by
    intro ys
    cases ys with
    | nil => rfl
    | cons y ys =>
      show x ∈ List.eraseRepsBy.loop (· == ·) y ys [] ↔ _
      rw [mem_eraseReps_loop, List.mem_cons]
      simp
  rw [sortedNames, herase, List.mem_mergeSort]

/-- The shorthand `c` has the name and the parameters of a definition, and the body that its text
stands for. -/
structure ShorthandDef.Gives (d : ShorthandDef) (c : Shorthand) : Prop where
  /-- The name of the definition. -/
  name : c.name = d.name
  /-- The parameters as they are given. -/
  params : c.params = d.args
  /-- The body as it is given. -/
  body : ShorthandBody.ofText? d.definition = some c.body

/-- A definition that passes gives its body, and the parameters are the free names of it. -/
theorem ShorthandDef.gives_of_check {d : ShorthandDef} {c : Shorthand} (h : d.check = .ok c) :
    d.Gives c ∧ ∀ x ∈ c.body.freeNames, x ∈ c.params := by
  unfold ShorthandDef.check at h
  split at h
  · cases h
  · split at h
    · cases h
    · next body hbody =>
      dsimp only at h
      split_ifs at h with hnames
      cases h
      -- parameters and free names are compared as sorted lists
      refine ⟨⟨rfl, rfl, hbody⟩, fun x hx => ?_⟩
      rw [← mem_sortedNames, ← hnames] at hx
      exact mem_sortedNames.mp hx

/-- A definition passes if its parameters are identifiers and the free names of its body. -/
theorem ShorthandDef.check_mk {name text : String} {params : List String} {body : ShorthandBody}
    (hparams : (params.find? fun a => !isIdentifier a) = none)
    (hbody : ShorthandBody.ofText? text = some body)
    (hnames : sortedNames params = sortedNames body.freeNames) :
    ShorthandDef.check ⟨name, params, text⟩ = .ok ⟨name, params, body⟩ := by
  unfold ShorthandDef.check
  rw [hparams, hbody]
  exact if_pos hnames

/-- The text of a predicate gives it as a body. -/
theorem ShorthandBody.ofText?_of_predicate {p : Predicate} (h : p.Fits)
    (hn : p.toJson.nesting ≤ Json.nestingLimit) :
    ShorthandBody.ofText? p.toJson.compact = some (.predicate p) := by
  rw [ShorthandBody.ofText?, Predicate.ofText?_toJson h hn]
  rfl

/-- A definition gives one shorthand only. -/
theorem ShorthandDef.Gives.unique {d : ShorthandDef} {c c' : Shorthand} (h : d.Gives c)
    (h' : d.Gives c') : c = c' := by
  have hbody : c.body = c'.body := Option.some.inj (h.body.symm.trans h'.body)
  have hname := h.name.trans h'.name.symm
  have hparams := h.params.trans h'.params.symm
  cases c
  cases c'
  congr

/-- Parameters stand for the arguments, whatever the other names are. -/
theorem bindParameters_eq_of_mem {params : List String} {vs : List Value} {x : String}
    (hx : x ∈ params) (hlength : vs.length = params.length) (s s' : State) :
    bindParameters params vs s x = bindParameters params vs s' x := by
  have hlookup : ((params.zip vs).lookup x).isSome := by
    induction params generalizing vs with
    | nil => cases hx
    | cons p params ih =>
      cases vs with
      | nil => cases hlength
      | cons v vs =>
        rw [List.zip_cons_cons, List.lookup_cons]
        by_cases hxp : x = p
        · rw [hxp, beq_self_eq_true]
          rfl
        · rw [beq_false_of_ne hxp]
          exact ih ((List.mem_cons.mp hx).resolve_left hxp) (Nat.succ.inj hlength)
  obtain ⟨v, hv⟩ := Option.isSome_iff_exists.mp hlookup
  rw [bindParameters, bindParameters, hv, Option.getD_some, Option.getD_some]

/-- What a call means depends on the free names of the body only. -/
theorem ShorthandBody.IsMeantBy.congr {b : ShorthandBody} {f : String} {vs : List Value}
    {s s' : State} (hs : ∀ x ∈ b.freeNames, s x = s' x) (h : b.IsMeantBy I f vs s) :
    b.IsMeantBy I f vs s' := by
  cases b with
  | predicate p => exact Iff.trans h (p.holds_congr (m := .free) hs)
  | int e => exact Eq.trans h (e.value_congr (m := .free) hs)

/-- Where the parameters are the free names, calls that are read as bodies are read so whatever the
other names are. -/
theorem Shorthands.InterpretedBy.interpretedIn {table : Shorthands}
    (hI : table.InterpretedBy I)
    (hfree : ∀ d ∈ table.defs, ∀ x ∈ d.body.freeNames, x ∈ d.params) : table.InterpretedIn I := by
  intro f d hd vs hvs s
  have hmem : d ∈ table.defs := List.mem_of_find?_eq_some hd
  have hname : d.name = f := by simpa using List.find?_some hd
  rw [← hname]
  refine (hI f d hd vs hvs).congr fun x hx => ?_
  exact bindParameters_eq_of_mem (hfree d hmem x hx) hvs _ s

/-- Expansion with defined shorthands changes the meaning of nothing: not of the bodies as they were
given, and not of any predicate, integer, specification or program, for every way to read calls as
the given bodies. -/
theorem Shorthands.equivalent_of_define {defs : List ShorthandDef} {table : Shorthands}
    (h : Shorthands.define defs = .ok table) :
    ∃ given, List.Forall₂ ShorthandDef.Gives defs given ∧
      ∀ I : Interpretation, Shorthands.InterpretedBy I ⟨given⟩ →
        List.Forall₂ (Shorthand.Equivalent I) given table.defs ∧
        (∀ p p', table.predicate p = .ok p' → p.Equivalent I p') ∧
        (∀ e e', table.int e = .ok e' → e.Equivalent I e') ∧
        (∀ c c', table.spec c = .ok c' → c.Equivalent I c') ∧
        (∀ P P', table.program P = .ok P' → P.Equivalent I P') := by
  unfold Shorthands.define at h
  obtain ⟨given, hgiven, hrounds⟩ := exists_of_bind_eq_ok h
  have hchecked := forall₂_of_mapM_eq_ok hgiven
  refine ⟨given, hchecked.imp fun _ _ hd => (ShorthandDef.gives_of_check hd).1, fun I hI => ?_⟩
  -- no body has a free name that a binder around a call could capture
  have hfree : ∀ c ∈ given, ∀ x ∈ c.body.freeNames, x ∈ c.params := by
    intro c hc
    obtain ⟨d, hd⟩ := exists_of_forall₂_right hchecked hc
    exact (ShorthandDef.gives_of_check hd).2
  have hbodies := rounds_equivalent (hI.interpretedIn hfree) hrounds
  have htable := (hI.interpretedIn hfree).of_forall₂ hbodies
  exact ⟨hbodies, fun p _ hp => predicate_equivalent htable p hp,
    fun e _ he => int_equivalent htable e he, fun _ _ hc => spec_equivalent htable hc,
    fun _ _ hP => program_equivalent htable hP⟩

/-! ## A sample

Three definitions: `contains(a, x)` has a binder and calls the other two, `first(a)` is an integer,
and `below(n)` refers to itself. Expanding `contains` in the scope of another `k` renames its own.
-/

namespace Shorthands.Sample

/-- Some element of `a` below the index `first(a)` is `x`. -/
def contains : Predicate :=
  .quant .some "k" (.and (.comp .le (.const 0) (.name "k"))
      (.comp .lt (.name "k") (.call "first" [.map (.name "a")])))
    (.comp .eq (.var (.select (.name "a") (.name "k"))) (.name "x"))

/-- The element of `a` at index zero. -/
def first : IntExpr := .var (.select (.name "a") (.const 0))

/-- Counting down from `n` reaches zero. -/
def below : Predicate :=
  .or (.comp .le (.name "n") (.const 0)) (.call "below" [.int (.minus (.name "n") (.const 1))])

/-- The definitions as they are given. -/
def defs : List ShorthandDef :=
  [⟨"contains", ["a", "x"], contains.toJson.compact⟩, ⟨"first", ["a"], first.toJson.compact⟩,
    ⟨"below", ["n"], below.toJson.compact⟩]

/-- The shorthands before they are expanded into each other. -/
def given : List Shorthand :=
  [⟨"contains", ["a", "x"], .predicate contains⟩, ⟨"first", ["a"], .int first⟩,
    ⟨"below", ["n"], .predicate below⟩]

/-- `b` contains all sums of its first element and a natural number, and one can count down from
each. -/
def formula : Predicate :=
  .quant .all "k" (.comp .le (.const 0) (.name "k"))
    (.and
      (.call "contains"
        [.map (.name "b"), .int (.plus (.name "k") (.call "first" [.map (.name "b")]))])
      (.call "below" [.int (.name "k")]))

/-- The calls as they are meant. -/
def meaning : Interpretation where
  function
    | "first", [a] => a.get 0
    | _, _ => .int 0
  relation
    | "contains", [a, x] =>
      ∃ k : Int, (0 ≤ k ∧ k < (a.get 0).toInt) ∧ (a.get k).toInt = x.toInt
    | "below", _ => True
    | _, _ => False
  fold _ _ _ := 0
  count _ _ := 0

/-- The definition of `first` is read as an integer expression. -/
theorem read_first : ShorthandBody.ofText? first.toJson.compact = some (.int first) := by
  have hfits : first.Fits := by simp [first, IntExpr.Fits, Variable.Fits]
  have hn : first.toJson.nesting ≤ Json.nestingLimit := by decide
  -- an element is not a predicate
  have hpredicate : Predicate.ofText? first.toJson.compact = none := by
    rw [Predicate.ofText?, Json.readText?_compact (first.isExact_toJson hfits) hn]
    rfl
  rw [ShorthandBody.ofText?, hpredicate, IntExpr.ofText?_toJson hfits hn]
  rfl

/-- The definition of `contains` is read as a predicate. -/
theorem read_contains :
    ShorthandBody.ofText? contains.toJson.compact = some (.predicate contains) := by
  refine ShorthandBody.ofText?_of_predicate ?_ (by decide)
  simp [contains, Predicate.and, Predicate.Fits, IntExpr.Fits, IntExpr.name, Variable.Fits,
    Expr.FitsAll, Expr.Fits]

/-- The definition of `below` is read as a predicate. -/
theorem read_below : ShorthandBody.ofText? below.toJson.compact = some (.predicate below) := by
  refine ShorthandBody.ofText?_of_predicate ?_ (by decide)
  simp [below, Predicate.or, Predicate.Fits, IntExpr.minus, IntExpr.Fits, IntExpr.name,
    Variable.Fits, Expr.FitsAll, Expr.Fits]

/-- The definitions are accepted one by one. -/
theorem check_defs : defs.mapM ShorthandDef.check = .ok given := by
  have hcontains : ShorthandDef.check ⟨"contains", ["a", "x"], contains.toJson.compact⟩ =
      .ok ⟨"contains", ["a", "x"], .predicate contains⟩ :=
    ShorthandDef.check_mk rfl read_contains (by cbv)
  have hfirst : ShorthandDef.check ⟨"first", ["a"], first.toJson.compact⟩ =
      .ok ⟨"first", ["a"], .int first⟩ :=
    ShorthandDef.check_mk rfl read_first (by cbv)
  have hbelow : ShorthandDef.check ⟨"below", ["n"], below.toJson.compact⟩ =
      .ok ⟨"below", ["n"], .predicate below⟩ :=
    ShorthandDef.check_mk rfl read_below (by cbv)
  rw [defs, List.mapM_cons, hcontains, List.mapM_cons, hfirst, List.mapM_cons, hbelow]
  rfl

/-- The definitions give a table that changes the formula. -/
theorem exists_expansion : ∃ table p, Shorthands.define defs = .ok table ∧
    table.predicate formula = .ok p ∧ p ≠ formula := by
  rw [Shorthands.define, check_defs]
  exact ⟨_, _, rfl, rfl, by decide +kernel⟩

/-- The interpretation gives the definitions their meaning. -/
theorem interpretedBy_meaning : Shorthands.InterpretedBy meaning ⟨given⟩ := by
  intro f d hd
  have hmem : d ∈ given := List.mem_of_find?_eq_some hd
  rcases List.mem_cons.mp hmem with rfl | hmem
  · -- the body of `contains` calls `first`
    rintro vs hvs
    obtain ⟨a, x, rfl⟩ := List.length_eq_two.mp hvs
    simp [ShorthandBody.IsMeantBy, contains, Predicate.Holds, Quantifier.Ranges, meaning,
      CompOp.Compares, IntExpr.value, Variable.value, Expr.valueAll, Expr.value, bindParameters,
      List.lookup_cons]
  rcases List.mem_cons.mp hmem with rfl | hmem
  · rintro vs hvs
    obtain ⟨a, rfl⟩ := List.length_eq_one_iff.mp hvs
    simp [ShorthandBody.IsMeantBy, first, meaning, IntExpr.value, Variable.value, bindParameters]
  · obtain rfl := List.mem_singleton.mp hmem
    rintro vs hvs
    simp [ShorthandBody.IsMeantBy, below, Predicate.or, Predicate.Holds, BoolOp.Joins, meaning]

/-- The formula means the same after expansion with the sample definitions. -/
theorem formula_expansion :
    ∃ table p, Shorthands.define defs = .ok table ∧ table.predicate formula = .ok p ∧
      p ≠ formula ∧ Shorthands.InterpretedBy meaning ⟨given⟩ ∧ formula.Equivalent meaning p := by
  obtain ⟨table, p, hdefine, hp, hne⟩ := exists_expansion
  obtain ⟨given', hgives, hequivalent⟩ := Shorthands.equivalent_of_define hdefine
  have hsample : List.Forall₂ ShorthandDef.Gives defs given :=
    (forall₂_of_mapM_eq_ok check_defs).imp fun _ _ h => (ShorthandDef.gives_of_check h).1
  have hunique : Relator.RightUnique ShorthandDef.Gives := fun _ _ _ => ShorthandDef.Gives.unique
  -- the shorthands that the definitions give are the ones listed above
  obtain rfl : given' = given := List.right_unique_forall₂' hunique hgives hsample
  obtain ⟨-, hpredicate, -⟩ := hequivalent meaning interpretedBy_meaning
  exact ⟨table, p, hdefine, hp, hne, interpretedBy_meaning, hpredicate formula p hp⟩

end Shorthands.Sample

end GuardedCommand
