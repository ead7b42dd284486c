import GuardedCommand.Surface.Program

/-! # Specifications

What a program is verified against: a precondition, a postcondition, and for every loop an invariant
with a bound that the loop decreases. A specification can be at fault before anything is to be
proved, for instance when an assignment names a target twice; `SpecFault` lists the faults.
-/

namespace GuardedCommand

/-- The invariant and the bound of a loop. -/
structure LoopSpec where
  /-- Holds before the loop and after every branch. -/
  invariant : Predicate
  /-- Is positive while a guard holds, and smaller after every branch. -/
  bound : IntExpr
  deriving DecidableEq

/-- What a program is to be verified against. -/
structure Spec where
  /-- Holds when the program starts. -/
  precondition : Predicate
  /-- Holds when the program ends. -/
  postcondition : Predicate
  /-- One entry for each loop, in the order in which the loops are written. -/
  loops : List LoopSpec
  deriving DecidableEq

/-- What is wrong with a program or its specification. -/
inductive SpecFault where
  /-- An assignment has not as many targets as values. -/
  | targetCount (targets values : Nat)
  /-- An assignment names a target twice. -/
  | repeatedTarget (v : Variable)
  /-- An assignment has a modified map among its targets. -/
  | storeTarget (v : Variable)
  /-- An assignment writes a map and one of its elements. -/
  | wholeAndElement (root : String)
  /-- An assignment writes an element of something that is no map. -/
  | notAMap (root : String)
  /-- There are not as many loops as loop specifications. -/
  | loopCount (loops specs : Nat)
  /-- A loop has no specification. -/
  | unspecifiedLoop (loop : Nat)
  deriving DecidableEq

/-- A fault of a specification, with the text it concerns. -/
structure SpecError where
  /-- What is wrong. -/
  fault : SpecFault
  /-- Where it is wrong. -/
  range : TextRange
  deriving DecidableEq

/-- What is said about a fault. -/
def SpecFault.describe : SpecFault → String
  | .targetCount targets values =>
    toString targets ++ " targets but " ++ toString values ++ " values in an assignment"
  | .repeatedTarget v => "`" ++ v.render ++ "` is assigned more than once"
  | .storeTarget v => "`" ++ v.render ++ "` cannot be assigned to"
  | .wholeAndElement root =>
    "`" ++ root ++ "` and one of its elements are assigned together"
  | .notAMap root => "`" ++ root ++ "` is not a map"
  | .loopCount loops specs =>
    "the program has " ++ toString loops ++ " loops but " ++ toString specs ++
      " loop specifications were given"
  | .unspecifiedLoop loop => "no specification for loop #" ++ toString loop

/-- What is reported for a fault. -/
def SpecError.message (e : SpecError) : String :=
  "specification error: " ++ e.fault.describe

end GuardedCommand
