import GuardedCommand.Syntax.Formula

/-! # Formulas as text

Formulas are shown in the notation their authors use, for instance
`(A k : 0 <= k && k < n : a[k] = 0)`. A part is put in parentheses when it binds more loosely than
its place allows:

* `Prec`: how tightly a notation binds, from the loosest to the tightest.
* `Predicate.renderAt`, `IntExpr.renderAt`: the text of a formula at a place of a given tightness.
* `Predicate.render`, `IntExpr.render`, `Variable.render`, `Expr.render`: the text on its own.

Conjunction, disjunction and addition are shown without regard to how equal operators are grouped;
implication and equivalence group to the right.
-/

namespace GuardedCommand

/-- How tightly a notation binds. -/
inductive Prec where
  | lowest
  | iff
  | implies
  | or
  | and
  | comparison
  | sum
  | product
  | unary
  | primary
  deriving DecidableEq, Repr

/-- Position of a tightness among all, from the loosest. -/
def Prec.rank : Prec → Nat
  | .lowest => 0
  | .iff => 1
  | .implies => 2
  | .or => 3
  | .and => 4
  | .comparison => 5
  | .sum => 6
  | .product => 7
  | .unary => 8
  | .primary => 9

/-- Whether `p` binds more loosely than `q`. -/
def Prec.looser (p q : Prec) : Bool :=
  p.rank < q.rank

namespace BoolOp

/-- How tightly a connective binds. -/
def prec : BoolOp → Prec
  | .iff => .iff
  | .implies => .implies
  | .or => .or
  | .and => .and

/-- The symbol of a connective. -/
def symbol : BoolOp → String
  | .and => "&&"
  | .or => "||"
  | .implies => "=>"
  | .iff => "<=>"

/-- The tightness required of the right operand. -/
def rightPrec : BoolOp → Prec
  | .implies => .iff
  | .iff => .lowest
  | op => op.prec

/-- Whether a connective of tightness `op.prec` needs parentheses at a place of tightness `parent`.
At its own tightness only conjunction and disjunction stand bare. -/
def needsParens (op : BoolOp) (parent : Prec) : Bool :=
  op.prec.looser parent || (op.prec == parent && op.prec != .and && op.prec != .or)

end BoolOp

namespace ArithOp

/-- How tightly an operation binds. -/
def prec : ArithOp → Prec
  | .plus | .minus => .sum
  | .mult => .product

/-- The symbol of an operation. -/
def symbol : ArithOp → String
  | .plus => "+"
  | .minus => "-"
  | .mult => "*"

/-- The tightness required of the right operand: `a - (b - c)` keeps its parentheses. -/
def rightPrec : ArithOp → Prec
  | .plus => .sum
  | .minus | .mult => .unary

end ArithOp

/-- The symbol of a comparison. -/
def CompOp.symbol : CompOp → String
  | .lt => "<"
  | .gt => ">"
  | .le => "<="
  | .ge => ">="
  | .eq => "="
  | .ne => "<>"

/-- The word that introduces a quantifier. -/
def Quantifier.keyword : Quantifier → String
  | .all => "A"
  | .some => "E"

/-- The word that introduces an aggregate. -/
def Aggregate.keyword : Aggregate → String
  | .sum => "SUM"
  | .prod => "PROD"

/-- The word that introduces a count. -/
def countKeyword : String := "N"

/-- A text in parentheses, if they are needed. -/
def parens (needed : Bool) (text : String) : String :=
  if needed then "(" ++ text ++ ")" else text

/-- A quantifier, aggregate or count, from the texts of its parts. -/
def renderBinder (keyword k condition inner : String) : String :=
  "(" ++ keyword ++ " " ++ k ++ " : " ++ condition ++ " : " ++ inner ++ ")"

/-- An integer literal; a negative one is put in parentheses under a product or a sign. -/
def renderConst (c : Int) (parent : Prec) : String :=
  parens (c < 0 && Prec.looser .sum parent) (toString c)

mutual

/-- The text of a variable. -/
def Variable.render : Variable → String
  | .name x => x
  | .select b i => b.render ++ "[" ++ i.renderAt .lowest ++ "]"
  | .store b i e =>
    "(" ++ b.render ++ "; " ++ i.renderAt .primary ++ ":" ++ e.renderAt .primary ++ ")"

/-- The text of an expression at a place of tightness `parent`. -/
def Expr.renderAt (parent : Prec) : Expr → String
  | .map v => v.render
  | .int e => e.renderAt parent

/-- The text of an integer expression at a place of tightness `parent`. -/
def IntExpr.renderAt (parent : Prec) : IntExpr → String
  | .const c => renderConst c parent
  | .var v => v.render
  | .negate e => "-" ++ e.renderAt .unary
  | .binary op l r =>
    parens (op.prec.looser parent)
      (l.renderAt op.prec ++ " " ++ op.symbol ++ " " ++ r.renderAt op.rightPrec)
  | .call f args => f ++ "(" ++ Expr.renderArgs args ++ ")"
  | .fold op k c e => renderBinder op.keyword k (c.renderAt .lowest) (e.renderAt .lowest)
  | .count k c p => renderBinder countKeyword k (c.renderAt .lowest) (p.renderAt .lowest)

/-- The text of a predicate at a place of tightness `parent`. -/
def Predicate.renderAt (parent : Prec) : Predicate → String
  | .const true => "T"
  | .const false => "F"
  | .not p => "~" ++ p.renderAt .unary
  | .binary op l r =>
    parens (op.needsParens parent)
      (l.renderAt op.prec ++ " " ++ op.symbol ++ " " ++ r.renderAt op.rightPrec)
  | .comp op l r =>
    parens (Prec.looser .comparison parent)
      (l.renderAt .comparison ++ " " ++ op.symbol ++ " " ++ r.renderAt .comparison)
  | .call f args => f ++ "(" ++ Expr.renderArgs args ++ ")"
  | .perm a b n => "perm(" ++ a.render ++ ", " ++ b.render ++ ", " ++ n.renderAt .lowest ++ ")"
  | .quant q k c p => renderBinder q.keyword k (c.renderAt .lowest) (p.renderAt .lowest)

/-- The texts of arguments, separated by commas. -/
def Expr.renderArgs : List Expr → String
  | [] => ""
  | e :: es => e.renderAt .lowest ++ Expr.renderMoreArgs es

/-- The texts of the arguments after the first, each after a comma. -/
def Expr.renderMoreArgs : List Expr → String
  | [] => ""
  | e :: es => ", " ++ e.renderAt .lowest ++ Expr.renderMoreArgs es

end

/-- The text of an expression on its own. -/
def Expr.render (e : Expr) : String := e.renderAt .lowest

/-- The text of an integer expression on its own. -/
def IntExpr.render (e : IntExpr) : String := e.renderAt .lowest

/-- The text of a predicate on its own. -/
def Predicate.render (p : Predicate) : String := p.renderAt .lowest

instance : ToString Variable := ⟨Variable.render⟩
instance : ToString Expr := ⟨Expr.render⟩
instance : ToString IntExpr := ⟨IntExpr.render⟩
instance : ToString Predicate := ⟨Predicate.render⟩

end GuardedCommand
