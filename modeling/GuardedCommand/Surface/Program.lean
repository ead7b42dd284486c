import GuardedCommand.Surface.Formula
import GuardedCommand.Syntax.Statement

/-! # Programs as text

A program is shown one statement a line, separated by semicolons. A choice or a loop puts each guard
on a line of its own, with the body two levels deeper:

```text
do
  i < n ->
    i := i + 1
| i > n ->
    i := i - 1
od
```
-/

namespace GuardedCommand

/-- The blanks in front of a line at the given depth, two for each level. -/
def indentation (depth : Nat) : String :=
  "".pushn ' ' (2 * depth)

/-- The text of an assignment, without indentation. -/
def Assign.render (a : Assign) : String :=
  ", ".intercalate (a.lvalues.map Variable.render) ++ " := " ++
    ", ".intercalate (a.rvalues.map Expr.render)

namespace Statement

mutual

/-- The lines of a statement at a depth, without the final line break. -/
def renderAt (depth : Nat) : Statement → String
  | .abort _ => indentation depth ++ "abort"
  | .skip _ => indentation depth ++ "skip"
  | .assign a => indentation depth ++ a.render
  | .cond guards bodies _ =>
    indentation depth ++ "if\n" ++ renderBranches depth ' ' guards bodies ++
      indentation depth ++ "fi"
  | .loop guards bodies _ =>
    indentation depth ++ "do\n" ++ renderBranches depth ' ' guards bodies ++
      indentation depth ++ "od"

/-- The lines of a sequence of statements, separated by semicolons. -/
def renderSeq (depth : Nat) : List Statement → String
  | [] => ""
  | s :: ss => s.renderAt depth ++ renderRest depth ss

/-- The lines of the statements after the first, each after a semicolon. -/
def renderRest (depth : Nat) : List Statement → String
  | [] => ""
  | s :: ss => ";\n" ++ s.renderAt depth ++ renderRest depth ss

/-- The lines of the branches; `mark` stands in front of the first guard and a bar in front of the
others. -/
def renderBranches (depth : Nat) (mark : Char) : List Predicate → List (List Statement) → String
  | g :: gs, b :: bs =>
    indentation depth ++ mark.toString ++ " " ++ g.render ++ " ->\n" ++
      renderSeq (depth + 2) b ++ "\n" ++ renderBranches depth '|' gs bs
  | _, _ => ""

end

/-- The text of a statement on its own. -/
def render (s : Statement) : String := s.renderAt 0

end Statement

/-- The text of a program. -/
def Program.render (p : Program) : String := Statement.renderSeq 0 p.statements

instance : ToString Statement := ⟨Statement.render⟩
instance : ToString Program := ⟨Program.render⟩

end GuardedCommand
