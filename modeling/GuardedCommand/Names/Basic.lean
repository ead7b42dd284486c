import GuardedCommand.Syntax.Formula

/-! # Names in formulas

Which names a formula mentions, for each of the ways in which the question is asked.

* `Mention`: whether bound variables and the names of called functions count.
* `Predicate.names` and its companions: every mentioned name, in order of mention.
* `Predicate.freeNames`, `Predicate.allNames`: the two usual questions. A name is free unless a
  binder around it binds it; all names include the bound ones.
* `sortedNames`: the mentioned names in the order of their code points, each once.
-/

namespace GuardedCommand

/-- Which occurrences of names count. -/
structure Mention where
  /-- Names bound by quantifiers and aggregates count. -/
  bound : Bool := false
  /-- Names of called functions and relations count. -/
  calls : Bool := false
  deriving DecidableEq, Repr

/-- Free occurrences only. -/
def Mention.free : Mention := {}

/-- Free and bound occurrences. -/
def Mention.all : Mention := { bound := true }

/-- The names mentioned by a binder of `k` whose parts mention `xs`. -/
def Mention.binder (m : Mention) (k : String) (xs : List String) : List String :=
  if m.bound then k :: xs else xs.filter (· ≠ k)

/-- The names mentioned by a call of `f` whose arguments mention `xs`. -/
def Mention.call (m : Mention) (f : String) (xs : List String) : List String :=
  if m.calls then f :: xs else xs

mutual

/-- Names mentioned by a variable. -/
def Variable.names (m : Mention) : Variable → List String
  | .name x => [x]
  | .select b i => b.names m ++ i.names m
  | .store b i e => b.names m ++ i.names m ++ e.names m

/-- Names mentioned by an expression. -/
def Expr.names (m : Mention) : Expr → List String
  | .map v => v.names m
  | .int e => e.names m

/-- Names mentioned by an integer expression. -/
def IntExpr.names (m : Mention) : IntExpr → List String
  | .const _ => []
  | .var v => v.names m
  | .negate e => e.names m
  | .binary _ l r => l.names m ++ r.names m
  | .call f args => m.call f (Expr.namesAll m args)
  | .fold _ k c e => m.binder k (c.names m ++ e.names m)
  | .count k c p => m.binder k (c.names m ++ p.names m)

/-- Names mentioned by a predicate. -/
def Predicate.names (m : Mention) : Predicate → List String
  | .const _ => []
  | .not p => p.names m
  | .binary _ l r => l.names m ++ r.names m
  | .comp _ l r => l.names m ++ r.names m
  | .call f args => m.call f (Expr.namesAll m args)
  | .perm a b n => a.names m ++ b.names m ++ n.names m
  | .quant _ k c p => m.binder k (c.names m ++ p.names m)

/-- Names mentioned by arguments. -/
def Expr.namesAll (m : Mention) : List Expr → List String
  | [] => []
  | e :: es => e.names m ++ Expr.namesAll m es

end

/-- Names that occur free in a variable. -/
def Variable.freeNames (v : Variable) : List String := v.names .free

/-- Names that occur free in an expression. -/
def Expr.freeNames (e : Expr) : List String := e.names .free

/-- Names that occur free in an integer expression. -/
def IntExpr.freeNames (e : IntExpr) : List String := e.names .free

/-- Names that occur free in a predicate. -/
def Predicate.freeNames (p : Predicate) : List String := p.names .free

/-- Names that occur in a variable, bound or free. -/
def Variable.allNames (v : Variable) : List String := v.names .all

/-- Names that occur in an expression, bound or free. -/
def Expr.allNames (e : Expr) : List String := e.names .all

/-- Names that occur in an integer expression, bound or free. -/
def IntExpr.allNames (e : IntExpr) : List String := e.names .all

/-- Names that occur in a predicate, bound or free. -/
def Predicate.allNames (p : Predicate) : List String := p.names .all

/-- Names in the order of their code points, each once. -/
def sortedNames (xs : List String) : List String :=
  (xs.mergeSort fun x y => decide (x ≤ y)).eraseReps

end GuardedCommand
