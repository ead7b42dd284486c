/-! # Terms of the prover

The prover reads terms in prefix form, `(f t₁ … tₙ)`.

* `Term`: an atom or a list of terms; `Term.render` writes it on one line.
* `Layout`: a term with line breaks, the form of background definitions that people read.
-/

namespace GuardedCommand

/-- A term: an atom, or a list in parentheses. -/
inductive Term where
  /-- A name, a number or any other text that stands for itself. -/
  | atom (text : String)
  /-- Terms in parentheses. -/
  | list (items : List Term)

namespace Term

instance : Inhabited Term := ⟨.list []⟩

/-- The application of a function or an operator. -/
def apply (head : String) (args : List Term) : Term :=
  .list (.atom head :: args)

mutual

/-- A term on one line. -/
def render : Term → String
  | .atom text => text
  | .list items => "(" ++ renderItems items ++ ")"

/-- Terms separated by blanks. -/
def renderItems : List Term → String
  | [] => ""
  | [t] => t.render
  | t :: ts => t.render ++ " " ++ renderItems ts

end

end Term

/-- A term with line breaks. -/
inductive Layout where
  /-- An atom. -/
  | atom (text : String)
  /-- Terms in parentheses. -/
  | list (items : List Layout)
  /-- A term on a line of its own, after some blanks. -/
  | nextLine (indent : Nat) (t : Layout)

namespace Layout

mutual

/-- The term without its line breaks. -/
def toTerm : Layout → Term
  | .atom text => .atom text
  | .list items => .list (toTerms items)
  | .nextLine _ t => t.toTerm

/-- Terms without their line breaks. -/
def toTerms : List Layout → List Term
  | [] => []
  | t :: ts => t.toTerm :: toTerms ts

end

mutual

/-- A term as it is laid out. -/
def render : Layout → String
  | .atom text => text
  | .list [] => "()"
  | .list (t :: ts) => "(" ++ t.render ++ renderRest ts ++ ")"
  | .nextLine _ t => t.render

/-- Further terms of a list, each after a blank or on a line of its own. -/
def renderRest : List Layout → String
  | [] => ""
  | .nextLine indent t :: ts => "\n".pushn ' ' indent ++ t.render ++ renderRest ts
  | t :: ts => " " ++ t.render ++ renderRest ts

end

end Layout

end GuardedCommand
