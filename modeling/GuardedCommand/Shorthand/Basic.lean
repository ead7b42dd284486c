import GuardedCommand.Specification.Basic
import GuardedCommand.Substitution.Basic
import GuardedCommand.Syntax.Statement

/-! # Shorthands

A shorthand names a predicate or an integer expression with parameters. A call of its name, in a
place for the kind of its body, stands for the body with the arguments for the parameters. Calls of
other names, and calls in a place for the other kind, are left alone.

* `Shorthands.find?`: the first definition of a name counts.
* `Shorthands.predicate`, `Shorthands.int`, …: expansion of all calls, the arguments first.
-/

namespace GuardedCommand

/-- The body of a shorthand. -/
inductive ShorthandBody where
  /-- A body for places where a predicate stands. -/
  | predicate (p : Predicate)
  /-- A body for places where an integer stands. -/
  | int (e : IntExpr)
  deriving DecidableEq

namespace ShorthandBody

/-- The free names of a body. -/
def freeNames : ShorthandBody → List String
  | .predicate p => p.freeNames
  | .int e => e.freeNames

/-- A body in concrete syntax. -/
def render : ShorthandBody → String
  | .predicate p => p.render
  | .int e => e.render

end ShorthandBody

/-- A named body with parameters. -/
structure Shorthand where
  /-- The name by which it is called. -/
  name : String
  /-- The parameters, in the order of the arguments of a call. -/
  params : List String
  /-- What a call stands for. -/
  body : ShorthandBody
  deriving DecidableEq

/-- Why a shorthand cannot be defined or expanded. -/
inductive ShorthandError where
  /-- A parameter is not an identifier. -/
  | badParameter (shorthand arg : String)
  /-- The parameters are not the free names of the body. -/
  | parameterMismatch (shorthand : String) (params used : List String)
  /-- A call has the wrong number of arguments. -/
  | arity (shorthand : String) (expected given : Nat)
  /-- The definition is neither a predicate nor an integer expression. -/
  | undefinable (shorthand : String)
  /-- The arguments do not fit the body. -/
  | subst (shorthand : String) (e : SubstError)
  deriving DecidableEq

namespace ShorthandError

/-- The text of an error. -/
def message : ShorthandError → String
  | .badParameter s arg => s!"shorthand `{s}`: argument `{arg}` is not a plain name"
  | .parameterMismatch s params used =>
    let params := ", ".intercalate params
    let used := ", ".intercalate used
    s!"shorthand `{s}`: the names of its arguments ({params}) are not the names used in its definition ({used})"
  | .arity s expected given =>
    s!"shorthand `{s}` expects {expected} arguments, but {given} were given"
  | .undefinable s => s!"cannot parse the definition of shorthand `{s}`"
  | .subst s e => s!"shorthand `{s}`: {e.message}"

end ShorthandError

/-- The substitution of the arguments of a call for the parameters. -/
def Shorthand.arguments (s : Shorthand) (args : List Expr) : Except ShorthandError Substitution :=
  if args.length = s.params.length then
    (Substitution.ofTargets (s.params.map Variable.name) args).mapError (.subst s.name)
  else
    .error (.arity s.name s.params.length args.length)

/-- A list of shorthands, of which the first with a name counts. -/
structure Shorthands where
  /-- The shorthands in the order of their definition. -/
  defs : List Shorthand

namespace Shorthands

/-- The shorthand that a name stands for. -/
def find? (table : Shorthands) (name : String) : Option Shorthand :=
  table.defs.find? fun s => s.name = name

/-- What a call of a name stands for where a predicate is expected. -/
def callPredicate (table : Shorthands) (f : String) (args : List Expr) :
    Except ShorthandError Predicate :=
  match table.find? f with
  | some s =>
    match s.body with
    | .predicate p => do
      let σ ← s.arguments args
      (p.subst σ).mapError (.subst s.name)
    | .int _ => .ok (.call f args)
  | none => .ok (.call f args)

/-- What a call of a name stands for where an integer is expected. -/
def callInt (table : Shorthands) (f : String) (args : List Expr) :
    Except ShorthandError IntExpr :=
  match table.find? f with
  | some s =>
    match s.body with
    | .int e => do
      let σ ← s.arguments args
      (e.subst σ).mapError (.subst s.name)
    | .predicate _ => .ok (.call f args)
  | none => .ok (.call f args)

mutual

/-- Expands the calls in a variable. -/
def var (table : Shorthands) : Variable → Except ShorthandError Variable
  | .name x => .ok (.name x)
  | .select b i => do
    let b ← table.var b
    let i ← table.int i
    .ok (.select b i)
  | .store b i e => do
    let b ← table.var b
    let i ← table.int i
    let e ← table.expr e
    .ok (.store b i e)

/-- Expands the calls in an expression. -/
def expr (table : Shorthands) : Expr → Except ShorthandError Expr
  | .map v => do
    let v ← table.var v
    .ok (.map v)
  | .int e => do
    let e ← table.int e
    .ok (.int e)

/-- Expands the calls in an integer expression. -/
def int (table : Shorthands) : IntExpr → Except ShorthandError IntExpr
  | .const c => .ok (.const c)
  | .var v => do
    let v ← table.var v
    .ok (.var v)
  | .negate e => do
    let e ← table.int e
    .ok (.negate e)
  | .binary op l r => do
    let l ← table.int l
    let r ← table.int r
    .ok (.binary op l r)
  | .call f args => do
    let args ← table.exprs args
    table.callInt f args
  | .fold op k c e => do
    let c ← table.predicate c
    let e ← table.int e
    .ok (.fold op k c e)
  | .count k c p => do
    let c ← table.predicate c
    let p ← table.predicate p
    .ok (.count k c p)

/-- Expands the calls in a predicate. -/
def predicate (table : Shorthands) : Predicate → Except ShorthandError Predicate
  | .const b => .ok (.const b)
  | .not p => do
    let p ← table.predicate p
    .ok (.not p)
  | .binary op l r => do
    let l ← table.predicate l
    let r ← table.predicate r
    .ok (.binary op l r)
  | .comp op l r => do
    let l ← table.int l
    let r ← table.int r
    .ok (.comp op l r)
  | .call f args => do
    let args ← table.exprs args
    table.callPredicate f args
  | .perm a b n => do
    let a ← table.var a
    let b ← table.var b
    let n ← table.int n
    .ok (.perm a b n)
  | .quant q k c p => do
    let c ← table.predicate c
    let p ← table.predicate p
    .ok (.quant q k c p)

/-- Expands the calls in a list of arguments. -/
def exprs (table : Shorthands) : List Expr → Except ShorthandError (List Expr)
  | [] => .ok []
  | e :: es => do
    let e ← table.expr e
    let es ← table.exprs es
    .ok (e :: es)

end

/-- Expands the calls in the specification of a loop. -/
def loopSpec (table : Shorthands) (l : LoopSpec) : Except ShorthandError LoopSpec := do
  let invariant ← table.predicate l.invariant
  let bound ← table.int l.bound
  .ok ⟨invariant, bound⟩

/-- Expands the calls in a specification. -/
def spec (table : Shorthands) (s : Spec) : Except ShorthandError Spec := do
  let precondition ← table.predicate s.precondition
  let postcondition ← table.predicate s.postcondition
  let loops ← s.loops.mapM table.loopSpec
  .ok ⟨precondition, postcondition, loops⟩

/-- Expands the calls in an assignment, also in its targets. -/
def assign (table : Shorthands) (a : Assign) : Except ShorthandError Assign := do
  let lvalues ← a.lvalues.mapM table.var
  let rvalues ← a.rvalues.mapM table.expr
  .ok ⟨lvalues, rvalues, a.range⟩

mutual

/-- Expands the calls in a statement. -/
def statement (table : Shorthands) : Statement → Except ShorthandError Statement
  | .abort r => .ok (.abort r)
  | .skip r => .ok (.skip r)
  | .assign a => do
    let a ← table.assign a
    .ok (.assign a)
  | .cond guards bodies r => do
    let guards ← guards.mapM table.predicate
    let bodies ← table.bodies bodies
    .ok (.cond guards bodies r)
  | .loop guards bodies r => do
    let guards ← guards.mapM table.predicate
    let bodies ← table.bodies bodies
    .ok (.loop guards bodies r)

/-- Expands the calls in a sequence of statements. -/
def statements (table : Shorthands) : List Statement → Except ShorthandError (List Statement)
  | [] => .ok []
  | s :: ss => do
    let s ← table.statement s
    let ss ← table.statements ss
    .ok (s :: ss)

/-- Expands the calls in the bodies of a guarded command. -/
def bodies (table : Shorthands) :
    List (List Statement) → Except ShorthandError (List (List Statement))
  | [] => .ok []
  | b :: bs => do
    let b ← table.statements b
    let bs ← table.bodies bs
    .ok (b :: bs)

end

/-- Expands the calls in a program. -/
def program (table : Shorthands) (p : Program) : Except ShorthandError Program := do
  let ss ← table.statements p.statements
  .ok ⟨ss⟩

end Shorthands

end GuardedCommand
