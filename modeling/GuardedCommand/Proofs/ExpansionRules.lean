import GuardedCommand.Proofs.Shorthands

/-! # Rules of expansion

What expansion makes of a node: one rule for each constructor, and two for a call. A call of a
shorthand gives way to the body with the expanded arguments in it; any other call keeps its name.
Whatever is shown of the rules holds of every expansion that succeeds.

* `Callee`, `Shorthands.resolve?`: what is called, and the shorthand that it stands for.
* `Node.Expands`: the rules.
* `Shorthands.expands_of_predicate`, `Shorthands.expands_of_int`: an expansion that succeeds follows
  the rules.
* `Shorthands.expandsTo_of_round`, `Shorthands.invariant_of_rounds`: one round of expansion, and any
  number of them.
-/

namespace GuardedCommand

/-! ## Calls and shorthands -/

/-- What a call asks for: a relation, where a predicate stands, or a function, where an integer
stands. -/
inductive Callee where
  /-- A relation with a name. -/
  | relation (f : String)
  /-- A function with a name. -/
  | function (f : String)
  deriving DecidableEq

/-- The name that is called. -/
def Callee.name : Callee → String
  | .relation f | .function f => f

/-- Whether a body is of the kind that a call asks for. -/
def ShorthandBody.answers : ShorthandBody → Callee → Bool
  | .predicate _, .relation _ | .int _, .function _ => true
  | .predicate _, .function _ | .int _, .relation _ => false

/-- A body as a node. -/
def ShorthandBody.node : ShorthandBody → Node
  | .predicate p => .predicate p
  | .int e => .int e

/-- A body mentions the same names as the node that it is. -/
theorem ShorthandBody.freeNames_node (b : ShorthandBody) : b.node.freeNames = b.freeNames := by
  cases b <;> rfl

namespace Shorthands

variable {table : Shorthands} {f : String} {args : List Expr} {s : Shorthand} {c : Callee}

/-- The shorthand that a call stands for: the first one with its name, if that is of its kind. -/
def resolve? (table : Shorthands) (c : Callee) : Option Shorthand :=
  (table.find? c.name).filter fun s => s.body.answers c

/-- A call stands for a shorthand if the first one with its name is of its kind. -/
theorem resolve?_eq_some :
    table.resolve? c = some s ↔ table.find? c.name = some s ∧ s.body.answers c = true :=
  Option.filter_eq_some_iff

/-- What a call stands for is in the table. -/
theorem mem_defs_of_resolve? (h : table.resolve? c = some s) : s ∈ table.defs :=
  List.mem_of_find?_eq_some (resolve?_eq_some.mp h).1

/-- A call of a relation that is no shorthand stays as it is. -/
theorem callPredicate_of_none (h : table.resolve? (.relation f) = none) :
    table.callPredicate f args = .ok (.call f args) := by
  unfold callPredicate
  split
  · next s hs =>
    split
    · next p hbody =>
      have hsome : table.resolve? (.relation f) = some s :=
        resolve?_eq_some.mpr ⟨hs, by rw [hbody]; rfl⟩
      rw [h] at hsome
      cases hsome
    · rfl
  · rfl

/-- A call of a function that is no shorthand stays as it is. -/
theorem callInt_of_none (h : table.resolve? (.function f) = none) :
    table.callInt f args = .ok (.call f args) := by
  unfold callInt
  split
  · next s hs =>
    split
    · next e hbody =>
      have hsome : table.resolve? (.function f) = some s :=
        resolve?_eq_some.mpr ⟨hs, by rw [hbody]; rfl⟩
      rw [h] at hsome
      cases hsome
    · rfl
  · rfl

/-- A call of a relation that is a shorthand stands for its body. -/
theorem callPredicate_of_some (h : table.resolve? (.relation f) = some s) :
    ∃ p, s.body = .predicate p ∧ ∀ args,
      table.callPredicate f args =
        (s.arguments args >>= fun σ => (p.subst σ).mapError (.subst s.name)) := by
  obtain ⟨hs, hanswers⟩ := resolve?_eq_some.mp h
  cases hbody : s.body with
  | int e =>
    rw [hbody] at hanswers
    cases hanswers
  | predicate p =>
    refine ⟨p, rfl, fun args => ?_⟩
    simp only [callPredicate, show table.find? f = some s from hs, hbody]

/-- A call of a function that is a shorthand stands for its body. -/
theorem callInt_of_some (h : table.resolve? (.function f) = some s) :
    ∃ e, s.body = .int e ∧ ∀ args,
      table.callInt f args =
        (s.arguments args >>= fun σ => (e.subst σ).mapError (.subst s.name)) := by
  obtain ⟨hs, hanswers⟩ := resolve?_eq_some.mp h
  cases hbody : s.body with
  | predicate p =>
    rw [hbody] at hanswers
    cases hanswers
  | int e =>
    refine ⟨e, rfl, fun args => ?_⟩
    simp only [callInt, show table.find? f = some s from hs, hbody]

end Shorthands

/-! ## The rules -/

/-- `n.Expands table n'` says that `n'` is the node `n` with the shorthands of a table expanded. -/
inductive Node.Expands (table : Shorthands) : Node → Node → Prop
  /-- A name stays. -/
  | name (x : String) : Expands table (.var (.name x)) (.var (.name x))
  /-- The map and the index of a selection. -/
  | select {b b' : Variable} {i i' : IntExpr} (hb : Expands table (.var b) (.var b'))
    (hi : Expands table (.int i) (.int i')) :
    Expands table (.var (.select b i)) (.var (.select b' i'))
  /-- The map, the index and the value of a stored element. -/
  | store {b b' : Variable} {i i' : IntExpr} {e e' : Expr} (hb : Expands table (.var b) (.var b'))
    (hi : Expands table (.int i) (.int i')) (he : Expands table (.expr e) (.expr e')) :
    Expands table (.var (.store b i e)) (.var (.store b' i' e'))
  /-- A variable used as a map. -/
  | map {v v' : Variable} (hv : Expands table (.var v) (.var v')) :
    Expands table (.expr (.map v)) (.expr (.map v'))
  /-- An integer as an expression. -/
  | int {e e' : IntExpr} (he : Expands table (.int e) (.int e')) :
    Expands table (.expr (.int e)) (.expr (.int e'))
  /-- A literal stays. -/
  | const (c : Int) : Expands table (.int (.const c)) (.int (.const c))
  /-- A variable used as an integer. -/
  | var {v v' : Variable} (hv : Expands table (.var v) (.var v')) :
    Expands table (.int (.var v)) (.int (.var v'))
  /-- The operand of a negation. -/
  | negate {e e' : IntExpr} (he : Expands table (.int e) (.int e')) :
    Expands table (.int (.negate e)) (.int (.negate e'))
  /-- Both operands of an operation. -/
  | arith {op : ArithOp} {l l' r r' : IntExpr} (hl : Expands table (.int l) (.int l'))
    (hr : Expands table (.int r) (.int r')) :
    Expands table (.int (.binary op l r)) (.int (.binary op l' r'))
  /-- All arguments of a function that is no shorthand. -/
  | function {f : String} {args args' : List Expr} (hf : table.resolve? (.function f) = none)
    (hlength : args.length = args'.length)
    (hargs : ∀ a ∈ args.zip args', Expands table (.expr a.1) (.expr a.2)) :
    Expands table (.int (.call f args)) (.int (.call f args'))
  /-- The body of a shorthand, with the expanded arguments for its parameters. -/
  | functionBody {f : String} {args args' : List Expr} {s : Shorthand} {e e' : IntExpr}
    (hs : table.resolve? (.function f) = some s) (hbody : s.body = .int e)
    (hlength : args.length = args'.length)
    (hargs : ∀ a ∈ args.zip args', Expands table (.expr a.1) (.expr a.2))
    (hparams : args'.length = s.params.length)
    (he : Node.Becomes ⟨s.params.zip args'⟩ (.int e) (.int e')) :
    Expands table (.int (.call f args)) (.int e')
  /-- Both parts of an aggregate. -/
  | fold {op : Aggregate} {k : String} {c c' : Predicate} {e e' : IntExpr}
    (hc : Expands table (.predicate c) (.predicate c')) (he : Expands table (.int e) (.int e')) :
    Expands table (.int (.fold op k c e)) (.int (.fold op k c' e'))
  /-- Both parts of a count. -/
  | count {k : String} {c c' p p' : Predicate}
    (hc : Expands table (.predicate c) (.predicate c'))
    (hp : Expands table (.predicate p) (.predicate p')) :
    Expands table (.int (.count k c p)) (.int (.count k c' p'))
  /-- A truth value stays. -/
  | truth (b : Bool) : Expands table (.predicate (.const b)) (.predicate (.const b))
  /-- The operand of a negation. -/
  | not {p p' : Predicate} (hp : Expands table (.predicate p) (.predicate p')) :
    Expands table (.predicate (.not p)) (.predicate (.not p'))
  /-- Both operands of a connective. -/
  | connective {op : BoolOp} {l l' r r' : Predicate}
    (hl : Expands table (.predicate l) (.predicate l'))
    (hr : Expands table (.predicate r) (.predicate r')) :
    Expands table (.predicate (.binary op l r)) (.predicate (.binary op l' r'))
  /-- Both sides of a comparison. -/
  | comp {op : CompOp} {l l' r r' : IntExpr} (hl : Expands table (.int l) (.int l'))
    (hr : Expands table (.int r) (.int r')) :
    Expands table (.predicate (.comp op l r)) (.predicate (.comp op l' r'))
  /-- All arguments of a relation that is no shorthand. -/
  | relation {f : String} {args args' : List Expr} (hf : table.resolve? (.relation f) = none)
    (hlength : args.length = args'.length)
    (hargs : ∀ a ∈ args.zip args', Expands table (.expr a.1) (.expr a.2)) :
    Expands table (.predicate (.call f args)) (.predicate (.call f args'))
  /-- The body of a shorthand, with the expanded arguments for its parameters. -/
  | relationBody {f : String} {args args' : List Expr} {s : Shorthand} {p p' : Predicate}
    (hs : table.resolve? (.relation f) = some s) (hbody : s.body = .predicate p)
    (hlength : args.length = args'.length)
    (hargs : ∀ a ∈ args.zip args', Expands table (.expr a.1) (.expr a.2))
    (hparams : args'.length = s.params.length)
    (hp : Node.Becomes ⟨s.params.zip args'⟩ (.predicate p) (.predicate p')) :
    Expands table (.predicate (.call f args)) (.predicate p')
  /-- Two maps and the number of elements. -/
  | perm {a a' b b' : Variable} {n n' : IntExpr} (ha : Expands table (.var a) (.var a'))
    (hb : Expands table (.var b) (.var b')) (hn : Expands table (.int n) (.int n')) :
    Expands table (.predicate (.perm a b n)) (.predicate (.perm a' b' n'))
  /-- Both parts of a quantifier. -/
  | quant {q : Quantifier} {k : String} {c c' p p' : Predicate}
    (hc : Expands table (.predicate c) (.predicate c'))
    (hp : Expands table (.predicate p) (.predicate p')) :
    Expands table (.predicate (.quant q k c p)) (.predicate (.quant q k c' p'))

/-! ## Expansion follows the rules -/

namespace Shorthands

variable {table : Shorthands}

mutual

/-- A variable is expanded by the rules. -/
theorem expands_of_var : ∀ (v : Variable) {v' : Variable}, table.var v = .ok v' →
    Node.Expands table (.var v) (.var v')
  | .name x, v', h => by
    simp only [var] at h
    cases h
    exact .name x
  | .select b i, v', h => by
    simp only [var] at h
    obtain ⟨b', hb, h⟩ := exists_of_bind_eq_ok h
    obtain ⟨i', hi, h⟩ := exists_of_bind_eq_ok h
    cases h
    exact .select (expands_of_var b hb) (expands_of_int i hi)
  | .store b i e, v', h => by
    simp only [var] at h
    obtain ⟨b', hb, h⟩ := exists_of_bind_eq_ok h
    obtain ⟨i', hi, h⟩ := exists_of_bind_eq_ok h
    obtain ⟨e', he, h⟩ := exists_of_bind_eq_ok h
    cases h
    exact .store (expands_of_var b hb) (expands_of_int i hi) (expands_of_expr e he)

/-- An expression is expanded by the rules. -/
theorem expands_of_expr : ∀ (e : Expr) {e' : Expr}, table.expr e = .ok e' →
    Node.Expands table (.expr e) (.expr e')
  | .map v, e', h => by
    simp only [expr] at h
    obtain ⟨v', hv, h⟩ := exists_of_bind_eq_ok h
    cases h
    exact .map (expands_of_var v hv)
  | .int e, e', h => by
    simp only [expr] at h
    obtain ⟨d, hd, h⟩ := exists_of_bind_eq_ok h
    cases h
    exact .int (expands_of_int e hd)

/-- The expansion of an integer expression follows the rules. -/
theorem expands_of_int : ∀ (e : IntExpr) {e' : IntExpr}, table.int e = .ok e' →
    Node.Expands table (.int e) (.int e')
  | .const c, e', h => by
    simp only [int] at h
    cases h
    exact .const c
  | .var v, e', h => by
    simp only [int] at h
    obtain ⟨v', hv, h⟩ := exists_of_bind_eq_ok h
    cases h
    exact .var (expands_of_var v hv)
  | .negate e, e', h => by
    simp only [int] at h
    obtain ⟨d, hd, h⟩ := exists_of_bind_eq_ok h
    cases h
    exact .negate (expands_of_int e hd)
  | .binary op l r, e', h => by
    simp only [int] at h
    obtain ⟨l', hl, h⟩ := exists_of_bind_eq_ok h
    obtain ⟨r', hr, h⟩ := exists_of_bind_eq_ok h
    cases h
    exact .arith (expands_of_int l hl) (expands_of_int r hr)
  | .call f args, e', h => by
    simp only [int] at h
    obtain ⟨args', hargs, h⟩ := exists_of_bind_eq_ok h
    -- The arguments are expanded first, and take the places of the parameters as they are then.
    obtain ⟨hlength, hargs⟩ := expands_of_exprs args hargs
    cases hs : table.resolve? (.function f) with
    | none =>
      rw [callInt_of_none hs] at h
      cases h
      exact .function hs hlength hargs
    | some s =>
      obtain ⟨e, hbody, hcall⟩ := callInt_of_some hs
      rw [hcall] at h
      obtain ⟨σ, hσ, h⟩ := exists_of_bind_eq_ok h
      obtain ⟨hparams, rfl⟩ := Shorthand.eq_of_arguments hσ
      have hbecomes := IntExpr.becomes_of_subst (eq_ok_of_mapError_eq_ok h)
      exact .functionBody hs hbody hlength hargs hparams hbecomes
  | .fold op k c e, e', h => by
    simp only [int] at h
    obtain ⟨c', hc, h⟩ := exists_of_bind_eq_ok h
    obtain ⟨d, hd, h⟩ := exists_of_bind_eq_ok h
    cases h
    exact .fold (expands_of_predicate c hc) (expands_of_int e hd)
  | .count k c p, e', h => by
    simp only [int] at h
    obtain ⟨c', hc, h⟩ := exists_of_bind_eq_ok h
    obtain ⟨q, hq, h⟩ := exists_of_bind_eq_ok h
    cases h
    exact .count (expands_of_predicate c hc) (expands_of_predicate p hq)

/-- The expansion of a predicate follows the rules. -/
theorem expands_of_predicate : ∀ (p : Predicate) {p' : Predicate}, table.predicate p = .ok p' →
    Node.Expands table (.predicate p) (.predicate p')
  | .const b, p', h => by
    simp only [predicate] at h
    cases h
    exact .truth b
  | .not p, p', h => by
    simp only [predicate] at h
    obtain ⟨q, hq, h⟩ := exists_of_bind_eq_ok h
    cases h
    exact .not (expands_of_predicate p hq)
  | .binary op l r, p', h => by
    simp only [predicate] at h
    obtain ⟨l', hl, h⟩ := exists_of_bind_eq_ok h
    obtain ⟨r', hr, h⟩ := exists_of_bind_eq_ok h
    cases h
    exact .connective (expands_of_predicate l hl) (expands_of_predicate r hr)
  | .comp op l r, p', h => by
    simp only [predicate] at h
    obtain ⟨l', hl, h⟩ := exists_of_bind_eq_ok h
    obtain ⟨r', hr, h⟩ := exists_of_bind_eq_ok h
    cases h
    exact .comp (expands_of_int l hl) (expands_of_int r hr)
  | .call f args, p', h => by
    simp only [predicate] at h
    obtain ⟨args', hargs, h⟩ := exists_of_bind_eq_ok h
    obtain ⟨hlength, hargs⟩ := expands_of_exprs args hargs
    cases hs : table.resolve? (.relation f) with
    | none =>
      rw [callPredicate_of_none hs] at h
      cases h
      exact .relation hs hlength hargs
    | some s =>
      obtain ⟨p, hbody, hcall⟩ := callPredicate_of_some hs
      rw [hcall] at h
      obtain ⟨σ, hσ, h⟩ := exists_of_bind_eq_ok h
      obtain ⟨hparams, rfl⟩ := Shorthand.eq_of_arguments hσ
      have hbecomes := Predicate.becomes_of_subst (eq_ok_of_mapError_eq_ok h)
      exact .relationBody hs hbody hlength hargs hparams hbecomes
  | .perm a b n, p', h => by
    simp only [predicate] at h
    obtain ⟨a', ha, h⟩ := exists_of_bind_eq_ok h
    obtain ⟨b', hb, h⟩ := exists_of_bind_eq_ok h
    obtain ⟨n', hn, h⟩ := exists_of_bind_eq_ok h
    cases h
    exact .perm (expands_of_var a ha) (expands_of_var b hb) (expands_of_int n hn)
  | .quant q k c p, p', h => by
    simp only [predicate] at h
    obtain ⟨c', hc, h⟩ := exists_of_bind_eq_ok h
    obtain ⟨r, hr, h⟩ := exists_of_bind_eq_ok h
    cases h
    exact .quant (expands_of_predicate c hc) (expands_of_predicate p hr)

/-- Arguments are expanded by the rules, one by one. -/
theorem expands_of_exprs : ∀ (es : List Expr) {es' : List Expr}, table.exprs es = .ok es' →
    es.length = es'.length ∧ ∀ a ∈ es.zip es', Node.Expands table (.expr a.1) (.expr a.2)
  | [], es', h => by
    simp only [exprs] at h
    cases h
    exact ⟨rfl, List.forall_mem_nil _⟩
  | e :: es, es', h => by
    simp only [exprs] at h
    obtain ⟨d, hd, h⟩ := exists_of_bind_eq_ok h
    obtain ⟨ds, hds, h⟩ := exists_of_bind_eq_ok h
    cases h
    obtain ⟨hlength, hes⟩ := expands_of_exprs es hds
    exact ⟨congrArg Nat.succ hlength, List.forall_mem_cons.mpr ⟨expands_of_expr e hd, hes⟩⟩

end

end Shorthands

/-! ## Rounds -/

/-- The shorthand `t` is `s` with its body expanded. -/
structure Shorthand.ExpandsTo (table : Shorthands) (s t : Shorthand) : Prop where
  /-- The name stays. -/
  name : t.name = s.name
  /-- The parameters stay. -/
  params : t.params = s.params
  /-- The body stays of its kind. -/
  kind (c : Callee) : t.body.answers c = s.body.answers c
  /-- The body is expanded. -/
  body : s.body.node.Expands table t.body.node

namespace Shorthands

variable {table table' : Shorthands}

/-- A round expands every shorthand. -/
theorem expandsTo_of_round (h : table.round = .ok table') :
    List.Forall₂ (Shorthand.ExpandsTo table) table.defs table'.defs := by
  obtain ⟨ds, hds, h⟩ := exists_of_bind_eq_ok h
  cases h
  refine (forall₂_of_mapM_eq_ok hds).imp fun s t ht => ?_
  obtain ⟨body, hbody, ht⟩ := exists_of_bind_eq_ok ht
  cases ht
  cases hs : s.body with
  | predicate p =>
    rw [hs] at hbody
    obtain ⟨q, hq, hbody⟩ := exists_of_bind_eq_ok hbody
    cases hbody
    refine ⟨rfl, rfl, fun c => by rw [hs]; cases c <;> rfl, ?_⟩
    rw [hs]
    exact expands_of_predicate p hq
  | int e =>
    rw [hs] at hbody
    obtain ⟨d, hd, hbody⟩ := exists_of_bind_eq_ok hbody
    cases hbody
    refine ⟨rfl, rfl, fun c => by rw [hs]; cases c <;> rfl, ?_⟩
    rw [hs]
    exact expands_of_int e hd

/-- What a round takes from one stage to the next, a number of rounds takes that number of stages
further. -/
theorem invariant_of_rounds {P : Nat → Shorthands → Prop}
    (hstep : ∀ r t t', P r t → t.round = .ok t' → P (r + 1) t') {n r : Nat} (hP : P r table)
    (h : rounds n table = .ok table') : P (r + n) table' := by
  induction n generalizing r table with
  | zero =>
    cases h
    exact hP
  | succ n ih =>
    obtain ⟨next, hnext, h⟩ := exists_of_bind_eq_ok h
    have hrest := ih (hstep r table next hP hnext) h
    rwa [Nat.add_assoc, Nat.add_comm 1 n] at hrest

end Shorthands

/-- Lists that are related in two steps, item by item. -/
theorem forall₂_comp {α β γ : Type} {R : α → β → Prop} {S : β → γ → Prop}
    {T : α → γ → Prop} (hT : ∀ a b c, R a b → S b c → T a c) {as : List α} {bs : List β}
    {cs : List γ} (hR : List.Forall₂ R as bs) (hS : List.Forall₂ S bs cs) :
    List.Forall₂ T as cs := by
  induction hR generalizing cs with
  | nil =>
    cases hS
    exact .nil
  | cons hab _ ih =>
    cases hS with
    | cons hbc htail => exact .cons (hT _ _ _ hab hbc) (ih htail)

end GuardedCommand
