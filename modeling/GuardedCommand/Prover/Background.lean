import GuardedCommand.Prover.Term

/-! # Background definitions

What the prover is told about the functions that the built-in triggers produce: each axiom declares
its relation, if it is one, and asserts facts for all values of some variables. A fact comes with
the pattern of terms that it is applied to.
-/

namespace GuardedCommand

instance : Coe String Layout := ⟨.atom⟩

namespace Layout

/-- The application of a function or an operator. -/
def app (head : String) (args : List Layout) : Layout := .list (.atom head :: args)

/-- A list of names. -/
def names (xs : List String) : Layout := .list (xs.map .atom)

/-- The element `a[i]`. -/
def select (a i : Layout) : Layout := app "select" [a, i]

/-- The number before. -/
def before (e : Layout) : Layout := app "-" [e, "1"]

/-- The number after. -/
def after (e : Layout) : Layout := app "+" [e, "1"]

/-- A range is empty. -/
def emptyRange (lo hi : Layout) : Layout := app "<" [hi, lo]

/-- A range is not empty. -/
def nonemptyRange (lo hi : Layout) : Layout := app "<=" [lo, hi]

/-- An implication on one line. -/
def implies (p q : Layout) : Layout := app "IMPLIES" [p, q]

/-- An implication with its conclusion on the next line. -/
def impliesBelow (p q : Layout) : Layout := app "IMPLIES" [p, .nextLine 4 q]

/-- An equation. -/
def eq (x y : Layout) : Layout := app "EQ" [x, y]

end Layout

/-- One background definition. -/
inductive Declaration where
  /-- A name is a relation on some parameters. -/
  | relation (name : String) (params : List String)
  /-- A formula holds for all values of some variables; it is applied to terms of a pattern. -/
  | fact (vars : List String) (pattern body : Layout)

namespace Declaration

/-- A declaration in the prover's form. -/
def layout : Declaration → Layout
  | .relation name params => .app "DEFPRED" [.names (name :: params)]
  | .fact vars pattern body =>
    .app "BG_PUSH"
      [.app "FORALL" [.names vars, .nextLine 2 (.app "PATS" [pattern]), .nextLine 2 body]]

end Declaration

/-- The background definitions of an axiom. -/
structure Background where
  /-- What they are about. -/
  comment : String
  /-- The definitions. -/
  declarations : List Declaration

namespace Background

/-- The text of the definitions: a comment line, then one declaration after the other. -/
def text (b : Background) : String :=
  "; " ++ b.comment ++ "\n" ++ String.join (b.declarations.map fun d => d.layout.render ++ "\n")

open Layout

/-- The sum of an array over a range, from either end. -/
def arraySum : Background where
  comment := "(sum lo hi a) = a[lo] + ... + a[hi]"
  declarations :=
    let sum (lo hi : Layout) : Layout := app "sum" [lo, hi, "a"]
    let fact := Declaration.fact ["lo", "hi", "a"] (sum "lo" "hi")
    [fact (implies (emptyRange "lo" "hi") (eq (sum "lo" "hi") "0")),
      fact (impliesBelow (nonemptyRange "lo" "hi")
        (eq (sum "lo" "hi") (app "+" [sum "lo" (before "hi"), select "a" "hi"]))),
      fact (impliesBelow (nonemptyRange "lo" "hi")
        (eq (sum "lo" "hi") (app "+" [select "a" "lo", sum (after "lo") "hi"])))]

/-- The product of an array over a range, from either end. -/
def arrayProd : Background where
  comment := "(prod lo hi a) = a[lo] * ... * a[hi]"
  declarations :=
    let prod (lo hi : Layout) : Layout := app "prod" [lo, hi, "a"]
    let fact := Declaration.fact ["lo", "hi", "a"] (prod "lo" "hi")
    [fact (implies (emptyRange "lo" "hi") (eq (prod "lo" "hi") "1")),
      fact (impliesBelow (nonemptyRange "lo" "hi")
        (eq (prod "lo" "hi") (app "*" [prod "lo" (before "hi"), select "a" "hi"]))),
      fact (impliesBelow (nonemptyRange "lo" "hi")
        (eq (prod "lo" "hi") (app "*" [select "a" "lo", prod (after "lo") "hi"])))]

/-- The existence of an element in a range. -/
def arrayContains : Background where
  comment := "(contains lo hi a m) holds when a[k] = m for some lo <= k <= hi"
  declarations :=
    let contains (hi : Layout) : Layout := app "contains" ["lo", hi, "a", "m"]
    let fact := Declaration.fact ["lo", "hi", "a", "m"] (contains "hi")
    [.relation "contains" ["lo", "hi", "a", "m"],
      fact (implies (emptyRange "lo" "hi") (app "NOT" [contains "hi"])),
      fact (impliesBelow (nonemptyRange "lo" "hi")
        (app "IFF" [contains "hi",
          .nextLine 9 (app "OR" [contains (before "hi"), eq (select "a" "hi") "m"])])),
      .fact ["lo", "hi", "a", "m", "k"] (app "MPAT" [contains "hi", select "a" "k"])
        (impliesBelow
          (app "AND" [app "<=" ["lo", "k"], app "<=" ["k", "hi"], eq (select "a" "k") "m"])
          (contains "hi"))]

/-- Permutations: an equivalence that an exchange of two elements preserves. -/
def arrayPerm : Background where
  comment := "(perm a b n) holds when b[0..n) is a rearrangement of a[0..n)"
  declarations :=
    let perm (a b : Layout) : Layout := app "perm" [a, b, "n"]
    let exchange : Layout :=
      app "store" [app "store" ["a", "i", select "a" "j"], "j", select "a" "i"]
    [.relation "perm" ["a", "b", "n"],
      .fact ["a", "n"] (perm "a" "a") (perm "a" "a"),
      .fact ["a", "b", "n"] (perm "a" "b") (implies (perm "a" "b") (perm "b" "a")),
      .fact ["a", "b", "c", "n"] (app "MPAT" [perm "a" "b", perm "b" "c"])
        (implies (app "AND" [perm "a" "b", perm "b" "c"]) (perm "a" "c")),
      .fact ["a", "i", "j", "n"] exchange
        (impliesBelow
          (app "AND" [app "<=" ["0", "i"], app "<" ["i", "n"], app "<=" ["0", "j"],
            app "<" ["j", "n"]])
          (perm "a" exchange))]

/-- The sum of a matrix, row by row. -/
def matrixSum : Background where
  comment :=
    "(msum ilo ihi jlo jhi m) = sum of m[i][j] over ilo <= i <= ihi, jlo <= j <= jhi"
  declarations :=
    let row (hi : Layout) : Layout := app "msumrow" ["lo", hi, "r"]
    let rowFact := Declaration.fact ["lo", "hi", "r"] (row "hi")
    let sum (ihi : Layout) : Layout := app "msum" ["ilo", ihi, "jlo", "jhi", "m"]
    let sumFact := Declaration.fact ["ilo", "ihi", "jlo", "jhi", "m"] (sum "ihi")
    [rowFact (implies (emptyRange "lo" "hi") (eq (row "hi") "0")),
      rowFact (impliesBelow (nonemptyRange "lo" "hi")
        (eq (row "hi") (app "+" [row (before "hi"), select "r" "hi"]))),
      sumFact (implies (emptyRange "ilo" "ihi") (eq (sum "ihi") "0")),
      sumFact (impliesBelow (nonemptyRange "ilo" "ihi")
        (eq (sum "ihi")
          (.nextLine 8 (app "+" [sum (before "ihi"),
            app "msumrow" ["jlo", "jhi", select "m" "ihi"]]))))]

/-- The product of a row and a column. -/
def rowColumn : Background where
  comment := "(rowcolprod lo hi r c a b) = sum of a[r][k] * b[k][c] over lo <= k <= hi"
  declarations :=
    let product (hi : Layout) : Layout := app "rowcolprod" ["lo", hi, "r", "c", "a", "b"]
    let fact := Declaration.fact ["lo", "hi", "r", "c", "a", "b"] (product "hi")
    [fact (implies (emptyRange "lo" "hi") (eq (product "hi") "0")),
      fact (impliesBelow (nonemptyRange "lo" "hi")
        (eq (product "hi")
          (.nextLine 8 (app "+" [product (before "hi"),
            .nextLine 11 (app "*" [select (select "a" "r") "hi",
              select (select "b" "hi") "c"])]))))]

/-- The product of a row and a vector. -/
def rowVector : Background where
  comment := "(rowvecprod lo hi i a x) = sum of a[i][k] * x[k] over lo <= k <= hi"
  declarations :=
    let product (hi : Layout) : Layout := app "rowvecprod" ["lo", hi, "i", "a", "x"]
    let fact := Declaration.fact ["lo", "hi", "i", "a", "x"] (product "hi")
    [fact (implies (emptyRange "lo" "hi") (eq (product "hi") "0")),
      fact (impliesBelow (nonemptyRange "lo" "hi")
        (eq (product "hi")
          (.nextLine 8 (app "+" [product (before "hi"),
            app "*" [select (select "a" "i") "hi", select "x" "hi"]]))))]

end Background

end GuardedCommand
