import GuardedCommand.Source.Position
import GuardedCommand.Syntax.Equality

/-! # Programs

Guarded commands: simultaneous assignment, a choice between guarded branches, and a loop over
guarded branches.

* `Statement`: one command, with the range of text it was written in.
* `rangeOf`: the text covered by a sequence of statements.
* `countLoops`: the number of loops at any depth, each of which needs an invariant and a bound.

The guards and the bodies of a choice or a loop are kept as two lists. A branch is a guard with the
body at the same place; what is left over of the longer list is no branch.
-/

namespace GuardedCommand

/-- The simultaneous assignment of `rvalues` to `lvalues`. -/
structure Assign where
  /-- What is assigned to: names or elements of maps. -/
  lvalues : List Variable
  /-- The values, read before anything is written. -/
  rvalues : List Expr
  /-- Where the assignment was written. -/
  range : TextRange
  deriving DecidableEq

/-- A guarded command. -/
inductive Statement where
  /-- The command that always fails. -/
  | abort (range : TextRange)
  /-- The command that does nothing. -/
  | skip (range : TextRange)
  /-- A simultaneous assignment. -/
  | assign (a : Assign)
  /-- A choice of one branch whose guard holds; it fails if none does. -/
  | cond (guards : List Predicate) (bodies : List (List Statement)) (range : TextRange)
  /-- The repetition of branches whose guard holds, as long as there is one. -/
  | loop (guards : List Predicate) (bodies : List (List Statement)) (range : TextRange)

/-- A program is a sequence of statements. -/
structure Program where
  /-- The statements in order. -/
  statements : List Statement

namespace Statement

/-- Where a statement was written. -/
def range : Statement → TextRange
  | .abort r | .skip r => r
  | .assign a => a.range
  | .cond _ _ r | .loop _ _ r => r

/-- The text from the first to the last statement of a sequence, if it has any. -/
def rangeOf (ss : List Statement) : Option TextRange :=
  match ss.head?, ss.getLast? with
  | some first, some last => some (.cover first.range last.range)
  | _, _ => none

mutual

/-- Number of loops of a statement, itself included, at any depth. -/
def loops : Statement → Nat
  | .abort _ | .skip _ | .assign _ => 0
  | .cond _ bodies _ => bodyLoops bodies
  | .loop _ bodies _ => bodyLoops bodies + 1

/-- Number of loops of a sequence of statements. -/
def countLoops : List Statement → Nat
  | [] => 0
  | s :: ss => s.loops + countLoops ss

/-- Number of loops of all bodies of a choice or a loop. -/
def bodyLoops : List (List Statement) → Nat
  | [] => 0
  | b :: bs => countLoops b + bodyLoops bs

end

end Statement

namespace Program

/-- The text of a whole program; the all-zero range when it is empty. -/
def range (p : Program) : TextRange :=
  (Statement.rangeOf p.statements).getD .zero

/-- Number of loops of a program at any depth. -/
def countLoops (p : Program) : Nat :=
  Statement.countLoops p.statements

end Program

end GuardedCommand
