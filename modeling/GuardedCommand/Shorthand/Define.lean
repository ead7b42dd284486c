import GuardedCommand.Interchange.Formula
import GuardedCommand.Shorthand.Basic

/-! # Definitions of shorthands

A definition gives a name, parameters and the text of a body. The parameters have to be identifiers
and, as a set, the free names of the body. `Shorthands.define` then expands the bodies of `n`
definitions into each other `n - 1` times: a chain of references is resolved to its end, and a body
that refers to itself stays finite.
-/

namespace GuardedCommand

/-- A definition as it is given. -/
structure ShorthandDef where
  /-- The name by which the shorthand is called. -/
  name : String
  /-- The parameters. -/
  args : List String
  /-- The text of the body. -/
  definition : String
  deriving DecidableEq

/-- Whether a character may start an identifier. -/
def isIdentifierStart (c : Char) : Bool :=
  c.isAlpha || c == '_'

/-- Whether a text is an identifier: letters, digits and underscores of ASCII, no digit first. -/
def isIdentifier (s : String) : Bool :=
  match s.toList with
  | [] => false
  | c :: cs => isIdentifierStart c && cs.all fun d => isIdentifierStart d || d.isDigit

/-- The body that a text stands for: a predicate, failing that an integer expression. -/
def ShorthandBody.ofText? (text : String) : Option ShorthandBody :=
  (Predicate.ofText? text).map ShorthandBody.predicate <|>
    (IntExpr.ofText? text).map ShorthandBody.int

/-- The shorthand of a definition; its body is not expanded yet. -/
def ShorthandDef.check (d : ShorthandDef) : Except ShorthandError Shorthand :=
  match d.args.find? fun a => !isIdentifier a with
  | some a => .error (.badParameter d.name a)
  | none =>
    match ShorthandBody.ofText? d.definition with
    | none => .error (.undefinable d.name)
    | some body =>
      let params := sortedNames d.args
      let used := sortedNames body.freeNames
      if params = used then .ok ⟨d.name, d.args, body⟩
      else .error (.parameterMismatch d.name params used)

namespace Shorthands

/-- Expands the calls in a body. -/
def body (table : Shorthands) : ShorthandBody → Except ShorthandError ShorthandBody
  | .predicate p => do
    let p ← table.predicate p
    .ok (.predicate p)
  | .int e => do
    let e ← table.int e
    .ok (.int e)

/-- Expands the calls in the body of a shorthand. -/
def shorthand (table : Shorthands) (s : Shorthand) : Except ShorthandError Shorthand := do
  let body ← table.body s.body
  .ok { s with body }

/-- Expands every body once, with the bodies as they are. -/
def round (table : Shorthands) : Except ShorthandError Shorthands := do
  let defs ← table.defs.mapM table.shorthand
  .ok ⟨defs⟩

/-- Expands the bodies a number of times. -/
def rounds : Nat → Shorthands → Except ShorthandError Shorthands
  | 0, table => .ok table
  | n + 1, table => do
    let table ← table.round
    rounds n table

/-- The shorthands of a list of definitions, expanded into each other. -/
def define (defs : List ShorthandDef) : Except ShorthandError Shorthands := do
  let table ← defs.mapM ShorthandDef.check
  rounds (table.length - 1) ⟨table⟩

end Shorthands

end GuardedCommand
