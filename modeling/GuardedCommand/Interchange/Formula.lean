import GuardedCommand.Interchange.Record
import GuardedCommand.Surface.Formula

/-! # Formulas in JSON

Each node of a formula is a record whose tag is the word of its operator. `IntExpr` and `Predicate`
use some words for different nodes, so the category of a node has to be known; where both kinds of
expressions are possible, a variable is tried first.

* `Predicate.toJson` and its companions write a formula.
* `Predicate.ofJson?` and its companions read one.
* `Predicate.ofText?` and its companions read the text of one.
-/

namespace GuardedCommand

namespace Variable

/-- The words for the nodes of variables. -/
def tags : List String := ["name", "select", "store"]

/-- The word for a variable. -/
def tag : Variable → String
  | .name _ => "name"
  | .select .. => "select"
  | .store .. => "store"

end Variable

namespace IntExpr

/-- The words for the nodes of integer expressions. -/
def tags : List String :=
  ["const", "var", "negate", "plus", "minus", "mult", "call", "sum", "prod", "count"]

/-- The word for an integer expression. -/
def tag : IntExpr → String
  | .const _ => "const"
  | .var _ => "var"
  | .negate _ => "negate"
  | .binary .plus .. => "plus"
  | .binary .minus .. => "minus"
  | .binary .mult .. => "mult"
  | .call .. => "call"
  | .fold .sum .. => "sum"
  | .fold .prod .. => "prod"
  | .count .. => "count"

end IntExpr

namespace Predicate

/-- The words for the nodes of predicates. -/
def tags : List String :=
  ["const", "not", "and", "or", "implies", "iff", "comp", "call", "perm", "forall", "exists"]

/-- The word for a predicate. -/
def tag : Predicate → String
  | .const _ => "const"
  | .not _ => "not"
  | .binary .and .. => "and"
  | .binary .or .. => "or"
  | .binary .implies .. => "implies"
  | .binary .iff .. => "iff"
  | .comp .. => "comp"
  | .call .. => "call"
  | .perm .. => "perm"
  | .quant .all .. => "forall"
  | .quant .some .. => "exists"

end Predicate

/-! ## Writing -/

/-- A node with its tag and its fields. -/
def Json.node (tag : String) (fields : List (String × Json)) : Json :=
  .obj ((Json.tagField, .str tag) :: fields)

/-- A bound variable, written like a name. -/
def Json.boundVariable (k : String) : Json :=
  .node "name" [("name", .str k)]

mutual

/-- A variable as a JSON value. -/
def Variable.toJson : Variable → Json
  | .name x => .node "name" [("name", .str x)]
  | .select b i => .node "select" [("base", b.toJson), ("selector", i.toJson)]
  | .store b i e =>
    .node "store" [("base", b.toJson), ("selector", i.toJson), ("value", e.toJson)]

/-- An expression as a JSON value. -/
def Expr.toJson : Expr → Json
  | .map v => v.toJson
  | .int e => e.toJson

/-- An integer expression as a JSON value. -/
def IntExpr.toJson : IntExpr → Json
  | .const c => .node "const" [("const", .ofInt c)]
  | .var v => .node "var" [("var", v.toJson)]
  | .negate e => .node "negate" [("inner", e.toJson)]
  | .binary op l r =>
    .node (IntExpr.tag (.binary op l r)) [("left", l.toJson), ("right", r.toJson)]
  | .call f args => .node "call" [("name", .str f), ("args", .arr (Expr.toJsonAll args))]
  | .fold op k c e =>
    .node (IntExpr.tag (.fold op k c e))
      [("boundVar", .boundVariable k), ("condition", c.toJson), ("inner", e.toJson)]
  | .count k c p =>
    .node "count"
      [("boundVar", .boundVariable k), ("condition", c.toJson), ("inner", p.toJson)]

/-- A predicate as a JSON value. -/
def Predicate.toJson : Predicate → Json
  | .const b => .node "const" [("const", .bool b)]
  | .not p => .node "not" [("inner", p.toJson)]
  | .binary op l r =>
    .node (Predicate.tag (.binary op l r)) [("left", l.toJson), ("right", r.toJson)]
  | .comp op l r =>
    .node "comp" [("op", .str op.symbol), ("left", l.toJson), ("right", r.toJson)]
  | .call f args => .node "call" [("name", .str f), ("args", .arr (Expr.toJsonAll args))]
  | .perm a b n => .node "perm" [("arr1", a.toJson), ("arr2", b.toJson), ("n", n.toJson)]
  | .quant q k c p =>
    .node (Predicate.tag (.quant q k c p))
      [("boundVar", .boundVariable k), ("condition", c.toJson), ("inner", p.toJson)]

/-- Arguments as JSON values. -/
def Expr.toJsonAll : List Expr → List Json
  | [] => []
  | e :: es => e.toJson :: Expr.toJsonAll es

end

/-! ## Reading -/

/-- A comparison by its symbol. -/
def CompOp.ofSymbol? : String → Option CompOp
  | "<" => some .lt
  | ">" => some .gt
  | "<=" => some .le
  | ">=" => some .ge
  | "=" => some .eq
  | "<>" => some .ne
  | _ => none

/-- A comparison: its symbol, or an object with the symbol as its only name and nothing in it. -/
def CompOp.ofJson? : Json → Option CompOp
  | .str s => CompOp.ofSymbol? s
  | .obj [(s, .null)] => CompOp.ofSymbol? s
  | .obj [(s, .obj [])] => CompOp.ofSymbol? s
  | _ => none

/-- A bound variable: a name node, or just the name. -/
def Json.boundVariable? (j : Json) : Option String :=
  match j with
  | .str k => some k
  | j => do
    let (_, fields) ← j.node? false ["name"]
    match ← fields.required ["name"] with
    | [k] => k.string?
    | _ => none

/-- The fields of a quantifier, an aggregate or a count. -/
def Fields.binder? (fields : Fields) : Option (String × Json × Json) := do
  match ← fields.required ["boundVar", "condition", "inner"] with
  | [k, c, e] => do
    let k ← k.boundVariable?
    some (k, c, e)
  | _ => none

/-- The fields of a node with two operands. -/
def Fields.operands? (fields : Fields) : Option (Json × Json) := do
  match ← fields.required ["left", "right"] with
  | [l, r] => some (l, r)
  | _ => none

/-- The fields of a call; without arguments given there are none. -/
def Fields.call? {α : Type} (argument : Json → Option α) (fields : Fields) :
    Option (String × List α) := do
  match ← fields.values [.required "name", .optionally "args"] with
  | [some f, args] => do
    let f ← f.string?
    let args ← (args.map (Json.list? argument)).getD (some [])
    some (f, args)
  | _ => none

mutual

/-- Reads a variable that nests at most as deep as given. -/
def Variable.decode : Nat → Bool → Json → Option Variable
  | 0, _, _ => none
  | n + 1, spelledOut, j => do
    let (tag, fields) ← j.node? spelledOut Variable.tags
    match tag with
    | "name" =>
      match ← fields.required ["name"] with
      | [x] => x.string?.map .name
      | _ => none
    | "select" =>
      match ← fields.required ["base", "selector"] with
      | [b, i] => do
        let b ← Variable.decode n false b
        let i ← IntExpr.decode n false i
        some (.select b i)
      | _ => none
    | "store" =>
      match ← fields.required ["base", "selector", "value"] with
      | [b, i, e] => do
        let b ← Variable.decode n false b
        let i ← IntExpr.decode n false i
        let e ← (Variable.decode n false e).map Expr.map <|> (IntExpr.decode n false e).map Expr.int
        some (.store b i e)
      | _ => none
    | _ => none

/-- Reads an integer expression that nests at most as deep as given. -/
def IntExpr.decode : Nat → Bool → Json → Option IntExpr
  | 0, _, _ => none
  | n + 1, spelledOut, j => do
    let binary (op : ArithOp) (fields : Fields) : Option IntExpr := do
      let (l, r) ← fields.operands?
      let l ← IntExpr.decode n false l
      let r ← IntExpr.decode n false r
      some (.binary op l r)
    let fold (op : Aggregate) (fields : Fields) : Option IntExpr := do
      let (k, c, e) ← fields.binder?
      let c ← Predicate.decode n false c
      let e ← IntExpr.decode n false e
      some (.fold op k c e)
    let (tag, fields) ← j.node? spelledOut IntExpr.tags
    match tag with
    | "const" =>
      match ← fields.required ["const"] with
      | [c] => c.int?.map .const
      | _ => none
    | "var" =>
      match ← fields.required ["var"] with
      | [v] => (Variable.decode n false v).map .var
      | _ => none
    | "negate" =>
      match ← fields.required ["inner"] with
      | [e] => (IntExpr.decode n false e).map .negate
      | _ => none
    | "plus" => binary .plus fields
    | "minus" => binary .minus fields
    | "mult" => binary .mult fields
    | "call" => do
      let (f, args) ← fields.call? fun e =>
        (Variable.decode n false e).map Expr.map <|> (IntExpr.decode n false e).map Expr.int
      some (.call f args)
    | "sum" => fold .sum fields
    | "prod" => fold .prod fields
    | "count" => do
      let (k, c, p) ← fields.binder?
      let c ← Predicate.decode n false c
      let p ← Predicate.decode n false p
      some (.count k c p)
    | _ => none

/-- Reads a predicate that nests at most as deep as given. -/
def Predicate.decode : Nat → Bool → Json → Option Predicate
  | 0, _, _ => none
  | n + 1, spelledOut, j => do
    let binary (op : BoolOp) (fields : Fields) : Option Predicate := do
      let (l, r) ← fields.operands?
      let l ← Predicate.decode n false l
      let r ← Predicate.decode n false r
      some (.binary op l r)
    let quant (q : Quantifier) (fields : Fields) : Option Predicate := do
      let (k, c, p) ← fields.binder?
      let c ← Predicate.decode n false c
      let p ← Predicate.decode n false p
      some (.quant q k c p)
    let (tag, fields) ← j.node? spelledOut Predicate.tags
    match tag with
    | "const" =>
      match ← fields.required ["const"] with
      | [b] => b.bool?.map .const
      | _ => none
    | "not" =>
      match ← fields.required ["inner"] with
      | [p] => (Predicate.decode n false p).map .not
      | _ => none
    | "and" => binary .and fields
    | "or" => binary .or fields
    | "implies" => binary .implies fields
    | "iff" => binary .iff fields
    | "comp" =>
      match ← fields.required ["op", "left", "right"] with
      | [op, l, r] => do
        let op ← CompOp.ofJson? op
        let l ← IntExpr.decode n false l
        let r ← IntExpr.decode n false r
        some (.comp op l r)
      | _ => none
    | "call" => do
      let (f, args) ← fields.call? fun e =>
        (Variable.decode n false e).map Expr.map <|> (IntExpr.decode n false e).map Expr.int
      some (.call f args)
    | "perm" =>
      match ← fields.required ["arr1", "arr2", "n"] with
      | [a, b, m] => do
        let a ← Variable.decode n false a
        let b ← Variable.decode n false b
        let m ← IntExpr.decode n false m
        some (.perm a b m)
      | _ => none
    | "forall" => quant .all fields
    | "exists" => quant .some fields
    | _ => none

end

/-- Reads an expression that nests at most as deep as given: a variable, else an integer. -/
def Expr.decode (n : Nat) (j : Json) : Option Expr :=
  (Variable.decode n false j).map Expr.map <|> (IntExpr.decode n false j).map Expr.int

/-- Reads a variable. -/
def Variable.ofJson? (j : Json) : Option Variable := Variable.decode j.nesting true j

/-- Reads an expression. -/
def Expr.ofJson? (j : Json) : Option Expr := Expr.decode j.nesting j

/-- Reads an integer expression. -/
def IntExpr.ofJson? (j : Json) : Option IntExpr := IntExpr.decode j.nesting true j

/-- Reads a predicate. -/
def Predicate.ofJson? (j : Json) : Option Predicate := Predicate.decode j.nesting true j

/-- Reads the text of a variable. -/
def Variable.ofText? (text : String) : Option Variable := Json.readText? id ofJson? text

/-- Reads the text of an expression. -/
def Expr.ofText? (text : String) : Option Expr := Json.readText? id ofJson? text

/-- Reads the text of an integer expression. -/
def IntExpr.ofText? (text : String) : Option IntExpr := Json.readText? id ofJson? text

/-- Reads the text of a predicate. -/
def Predicate.ofText? (text : String) : Option Predicate := Json.readText? id ofJson? text

end GuardedCommand
