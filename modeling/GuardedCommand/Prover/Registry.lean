import GuardedCommand.Prover.Background
import GuardedCommand.Prover.Builtin
import GuardedCommand.Prover.Lowering
import GuardedCommand.Text.Uppercase

/-! # The registry of axioms

An axiom has a name, background definitions in the prover's form and perhaps a trigger. A registry
holds one axiom for each name, sorted by name.

* `Registry.register` adds or replaces a whole axiom.
* `Registry.define`, `Registry.load` replace only the definitions and keep the trigger.
* `Registry.enable` picks the axioms of a request, in its order and without repetitions.
-/

namespace GuardedCommand

/-- Background definitions with a name and perhaps a trigger. -/
structure Axiom where
  /-- The name. -/
  name : String
  /-- The text of the definitions. -/
  definition : String
  /-- Recognises the formulas that the definitions are about. -/
  trigger? : Option Trigger

/-- One axiom for each name, sorted by name. -/
structure Registry where
  /-- The axioms. -/
  axioms : List Axiom

/-- The name of the axiom that a file defines: `array-sum` defines `ARRAY_SUM`. -/
def axiomName (stem : String) : String :=
  upperText (String.ofList (stem.toList.map fun c => if c = '-' then '_' else c))

namespace Registry

/-- No axioms. -/
def empty : Registry := ⟨[]⟩

/-- The axiom of a name. -/
def get? (r : Registry) (name : String) : Option Axiom :=
  r.axioms.find? fun a => a.name = name

/-- Puts an axiom at its place in a sorted list, instead of the one with its name. -/
def insertSorted (a : Axiom) : List Axiom → List Axiom
  | [] => [a]
  | b :: bs =>
    if a.name < b.name then a :: b :: bs
    else if a.name = b.name then a :: bs
    else b :: insertSorted a bs

/-- Adds an axiom, or replaces the one of its name. -/
def register (r : Registry) (a : Axiom) : Registry :=
  ⟨insertSorted a r.axioms⟩

/-- Gives a name new definitions; a trigger stays. -/
def define (r : Registry) (name definition : String) : Registry :=
  let trigger? := (r.get? name).bind Axiom.trigger?
  r.register ⟨name, definition, trigger?⟩

/-- Loads definitions from files, given by the names of their axioms and their contents, up to the
first that cannot be read. The answer lists the names. -/
def load {ε : Type} (r : Registry) :
    List (String × Except ε String) → Registry × Except ε (List String)
  | [] => (r, .ok [])
  | (_, .error e) :: _ => (r, .error e)
  | (name, .ok definition) :: files =>
    let (r, loaded) := (r.define name definition).load files
    (r, loaded.map (name :: ·))

/-- A built-in axiom. -/
def builtinAxiom (trigger : Trigger) (background : Background) : Axiom where
  name := trigger.name
  definition := background.text
  trigger? := some trigger

/-- The built-in axioms. -/
def builtin : Registry :=
  [builtinAxiom .arraySum .arraySum, builtinAxiom .arrayProd .arrayProd,
    builtinAxiom .arrayContains .arrayContains, builtinAxiom .arrayPerm .arrayPerm,
    builtinAxiom .matrixSum .matrixSum, builtinAxiom .rowColumn .rowColumn,
    builtinAxiom .rowVector .rowVector].foldl register empty

/-- The axioms of some names beyond those already chosen. -/
def enableAfter (r : Registry) : List Axiom → List String → Except LowerError (List Axiom)
  | chosen, [] => .ok chosen
  | chosen, name :: names =>
    match r.get? name with
    | none => .error (.unknownAxiom name)
    | some a =>
      if chosen.any fun b => b.name = a.name then r.enableAfter chosen names
      else r.enableAfter (chosen ++ [a]) names

/-- The axioms of some names, each once, in the order of its first mention. -/
def enable (r : Registry) (names : List String) : Except LowerError (List Axiom) :=
  r.enableAfter [] names

end Registry

/-- The triggers of some axioms. -/
def Axiom.triggers (axioms : List Axiom) : List Trigger :=
  axioms.filterMap Axiom.trigger?

end GuardedCommand
