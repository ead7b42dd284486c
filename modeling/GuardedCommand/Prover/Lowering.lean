import GuardedCommand.Prover.Hint
import GuardedCommand.Prover.Trigger
import GuardedCommand.Surface.Formula
import GuardedCommand.Syntax.Equality

/-! # Lowering

Lowering turns a formula into a term of the prover. Each node is offered to the enabled triggers
first; a node that none claims has a term of its own. Aggregates, counts, permutations and the
existence of an element have no such term and need a trigger.

* `Predicate.lower` and its companions.
* `LowerError`: why there is no term.
-/

namespace GuardedCommand

/-- The sort of a node. -/
inductive NodeKind where
  /-- A predicate. -/
  | predicate
  /-- An integer expression. -/
  | int
  /-- A variable. -/
  | var
  deriving DecidableEq

/-- The sort of a node in words. -/
def NodeKind.describe : NodeKind → String
  | .predicate => "predicate"
  | .int => "integer expression"
  | .var => "variable"

/-- Why a formula has no term. -/
inductive LowerError where
  /-- More than one trigger claims a node. -/
  | ambiguous (node : NodeKind) (axioms : List String)
  /-- No trigger claims a predicate that has no term of its own. -/
  | noTermForPredicate (p : Predicate)
  /-- No trigger claims an aggregate or a count. -/
  | noTermForInt (e : IntExpr)
  /-- A name that is not that of an axiom. -/
  | unknownAxiom (name : String)
  deriving DecidableEq

/-- The text of an error. -/
def LowerError.message : LowerError → String
  | .ambiguous node axioms =>
    let names := ", ".intercalate axioms
    s!"more than one axiom trigger claims this {node.describe}: {names}"
  | .noTermForPredicate p => s!"no axiom enables this quantifier: {p.render}"
  | .noTermForInt e => s!"no axiom enables this quantifier: {e.render}"
  | .unknownAxiom name => s!"a request for an unknown axiom `{name}`"

/-- The prover's word for a connective. -/
def BoolOp.proverName : BoolOp → String
  | .and => "AND"
  | .or => "OR"
  | .implies => "IMPLIES"
  | .iff => "IFF"

/-- The prover's word for a comparison. -/
def CompOp.proverName : CompOp → String
  | .lt => "<"
  | .gt => ">"
  | .le => "<="
  | .ge => ">="
  | .eq => "EQ"
  | .ne => "NEQ"

/-- The prover's sign for an operator. -/
def ArithOp.proverName : ArithOp → String
  | .plus => "+"
  | .minus => "-"
  | .mult => "*"

namespace Term

/-- A truth value. -/
def bool (b : Bool) : Term := .atom (if b then "TRUE" else "FALSE")

/-- A natural number. -/
def nat (n : Nat) : Term := .atom (toString n)

/-- The negation of an integer, which is a difference from zero. -/
def negate (t : Term) : Term := .apply "-" [.atom "0", t]

/-- An integer. -/
def int (c : Int) : Term :=
  if c < 0 then .negate (.nat c.natAbs) else .nat c.natAbs

/-- A universal quantifier, with a hint where it is to be instantiated. -/
def all (k : String) (hint : Option Term) (condition inner : Term) : Term :=
  let body := apply "IMPLIES" [condition, inner]
  match hint with
  | some t => apply "FORALL" [.list [.atom k], apply "PATS" [t], body]
  | none => apply "FORALL" [.list [.atom k], body]

/-- An existential quantifier. -/
def some (k : String) (condition inner : Term) : Term :=
  apply "EXISTS" [.list [.atom k], apply "AND" [condition, inner]]

end Term

mutual

/-- The term of a predicate. -/
def Predicate.lower (ts : List Trigger) (p : Predicate) : Except LowerError Term :=
  match hc : Trigger.claims (·.onPredicate p) ts with
  | [] =>
    match p with
    | .const b => .ok (.bool b)
    | .not p => do
      let t ← p.lower ts
      .ok (.apply "NOT" [t])
    | .binary op l r => do
      let l ← l.lower ts
      let r ← r.lower ts
      .ok (.apply op.proverName [l, r])
    | .comp op l r => do
      let l ← l.lower ts
      let r ← r.lower ts
      .ok (.apply op.proverName [l, r])
    | .call f args => do
      have := Expr.sizeMax_le_sizeAll args
      let args ← Expr.lowerAll ts args
      .ok (.apply f args)
    | .perm a b n => .error (.noTermForPredicate (.perm a b n))
    | .quant .all k c q => do
      let condition ← c.lower ts
      let inner ← q.lower ts
      match hh : q.hint? k with
      | some v => do
        have := q.size_hint? hh
        let hint ← v.lower ts
        .ok (.all k (some hint) condition inner)
      | none => .ok (.all k none condition inner)
    | .quant .some k c q =>
      if q.isMembership k then .error (.noTermForPredicate (.quant .some k c q))
      else do
        let condition ← c.lower ts
        let inner ← q.lower ts
        .ok (.some k condition inner)
  | [(_, .fixed t)] => .ok t
  | [(_, .apply head parts)] => do
    have : Expr.sizeMax parts < p.size := by
      obtain ⟨t, -, ht⟩ := Trigger.exists_of_mem_claims (hc ▸ List.mem_singleton_self _)
      exact t.onPredicate_size ht
    let parts ← Expr.lowerAll ts parts
    .ok (.apply head parts)
  | cs => .error (.ambiguous .predicate (cs.map Prod.fst))
termination_by (p.size, 0)
decreasing_by
  all_goals simp only [Prod.lex_def, Predicate.size]
  all_goals omega

/-- The term of an integer expression. -/
def IntExpr.lower (ts : List Trigger) (e : IntExpr) : Except LowerError Term :=
  match hc : Trigger.claims (·.onInt e) ts with
  | [] =>
    match e with
    | .const c => .ok (.int c)
    | .var v => v.lower ts
    | .negate e => do
      let t ← e.lower ts
      .ok (.negate t)
    | .binary op l r => do
      let l ← l.lower ts
      let r ← r.lower ts
      .ok (.apply op.proverName [l, r])
    | .call f args => do
      have := Expr.sizeMax_le_sizeAll args
      let args ← Expr.lowerAll ts args
      .ok (.apply f args)
    | .fold op k c e => .error (.noTermForInt (.fold op k c e))
    | .count k c p => .error (.noTermForInt (.count k c p))
  | [(_, .fixed t)] => .ok t
  | [(_, .apply head parts)] => do
    have : Expr.sizeMax parts < e.size := by
      obtain ⟨t, -, ht⟩ := Trigger.exists_of_mem_claims (hc ▸ List.mem_singleton_self _)
      exact t.onInt_size ht
    let parts ← Expr.lowerAll ts parts
    .ok (.apply head parts)
  | cs => .error (.ambiguous .int (cs.map Prod.fst))
termination_by (e.size, 0)
decreasing_by
  all_goals simp only [Prod.lex_def, IntExpr.size]
  all_goals omega

/-- The term of a variable. -/
def Variable.lower (ts : List Trigger) (v : Variable) : Except LowerError Term :=
  match hc : Trigger.claims (·.onVariable v) ts with
  | [] =>
    match v with
    | .name x => .ok (.atom x)
    | .select b i => do
      let b ← b.lower ts
      let i ← i.lower ts
      .ok (.apply "select" [b, i])
    | .store b i e => do
      let b ← b.lower ts
      let i ← i.lower ts
      let e ← e.lower ts
      .ok (.apply "store" [b, i, e])
  | [(_, .fixed t)] => .ok t
  | [(_, .apply head parts)] => do
    have : Expr.sizeMax parts < v.size := by
      obtain ⟨t, -, ht⟩ := Trigger.exists_of_mem_claims (hc ▸ List.mem_singleton_self _)
      exact t.onVariable_size ht
    let parts ← Expr.lowerAll ts parts
    .ok (.apply head parts)
  | cs => .error (.ambiguous .var (cs.map Prod.fst))
termination_by (v.size, 0)
decreasing_by
  all_goals simp only [Prod.lex_def, Variable.size]
  all_goals omega

/-- The term of an expression. -/
def Expr.lower (ts : List Trigger) : Expr → Except LowerError Term
  | .map v => v.lower ts
  | .int e => e.lower ts
termination_by e => (e.size, 0)
decreasing_by
  all_goals simp only [Prod.lex_def, Expr.size]
  all_goals omega

/-- The terms of some expressions. -/
def Expr.lowerAll (ts : List Trigger) : List Expr → Except LowerError (List Term)
  | [] => .ok []
  | e :: es => do
    let t ← e.lower ts
    let rest ← Expr.lowerAll ts es
    .ok (t :: rest)
termination_by es => (Expr.sizeMax es, es.length + 1)
decreasing_by
  all_goals simp only [Prod.lex_def, Expr.sizeMax, List.length_cons]
  all_goals omega

end

end GuardedCommand
