import GuardedCommand.Source.Position

/-! # Fresh names

A supply of names that differ from one another and from every name of a given list. A supply is a
stem, at least as long in bytes as the longest name to avoid, and a counter. The stem followed by a
number is longer than every name to avoid, hence different from all of them.
-/

namespace GuardedCommand

/-- A supply of names that are not in use. -/
structure FreshNames where
  /-- What every supplied name starts with. -/
  stem : String
  /-- How many names have been supplied. -/
  used : Nat
  deriving DecidableEq, Repr

namespace FreshNames

/-- What every stem starts with. -/
def baseStem : List Char := "uniqueName".toList

/-- Number of bytes of the longest name; `0` if there is none. -/
def longest (names : List String) : Nat :=
  names.foldr (fun x n => max (byteLength x.toList) n) 0

/-- A supply of names that are not among `names`. The stem is filled up with the letter `A`. -/
def avoiding (names : List String) : FreshNames where
  stem := String.ofList
    (baseStem ++ List.replicate (longest names - byteLength baseStem) 'A')
  used := 0

/-- The name that follows `i` others. -/
def nameAt (fresh : FreshNames) (i : Nat) : String :=
  fresh.stem ++ toString i

/-- The next name, and the supply without it. -/
def next (fresh : FreshNames) : String × FreshNames :=
  (fresh.nameAt fresh.used, { fresh with used := fresh.used + 1 })

/-- The next `n` names. -/
def take : Nat → FreshNames → List String
  | 0, _ => []
  | n + 1, fresh => fresh.next.1 :: take n fresh.next.2

end FreshNames

end GuardedCommand
