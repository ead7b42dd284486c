import GuardedCommand.Interchange.Statement
import GuardedCommand.Shorthand.Define
import GuardedCommand.Specification.Basic

/-! # Tasks

A task is a specified program: pre- and postcondition, an invariant and a bound for each loop, the
axioms to use, shorthands and the code. Its formulas are texts that are read when the task is
prepared, see `Task.read`.
-/

namespace GuardedCommand

/-- The texts of the invariant and the bound of a loop. -/
structure LoopSource where
  /-- The text of the invariant. -/
  invariant : String
  /-- The text of the bound. -/
  bound : String
  deriving DecidableEq

/-- A program with its specification, as texts. -/
structure Task where
  /-- The text of the precondition. -/
  precondition : String
  /-- The text of the postcondition. -/
  postcondition : String
  /-- The texts for the loops. -/
  loops : List LoopSource
  /-- The names of the axioms to use. -/
  axioms : List String
  /-- The shorthands. -/
  shorthands : List ShorthandDef
  /-- The text of the program. -/
  code : String
  deriving DecidableEq

namespace LoopSource

/-- The fields of a loop; its bound has two names. -/
def fields : List Field := [.required "invariant", { names := ["variant", "bound"] }]

/-- Reads a loop. -/
def ofJson? (j : Json) : Option LoopSource := do
  match ← (← j.record?).values fields with
  | [some invariant, some bound] => some ⟨invariant.sourceText, bound.sourceText⟩
  | _ => none

end LoopSource

namespace ShorthandDef

/-- The fields of a definition. -/
def fields : List Field := [.required "name", .optionally "args", .required "definition"]

/-- Reads a definition. -/
def ofJson? (j : Json) : Option ShorthandDef := do
  match ← (← j.record?).values fields with
  | [some name, args, some definition] => do
    let name ← name.string?
    let args ← (args.map (Json.list? Json.string?)).getD (some [])
    some ⟨name, args, definition.sourceText⟩
  | _ => none

end ShorthandDef

namespace Task

/-- The fields of a task. -/
def fields : List Field :=
  [.required "precondition", .required "postcondition", .optionally "loops",
    .optionally "axioms", .optionally "shorthands", .required "code"]

/-- Reads a task. -/
def ofJson? (j : Json) : Option Task := do
  match ← (← j.record?).values fields with
  | [some precondition, some postcondition, loops, axioms, shorthands, some code] => do
    let loops ← (loops.map (Json.list? LoopSource.ofJson?)).getD (some [])
    let axioms ← (axioms.map (Json.list? Json.string?)).getD (some [])
    let shorthands ← (shorthands.map (Json.list? ShorthandDef.ofJson?)).getD (some [])
    some ⟨precondition.sourceText, postcondition.sourceText, loops, axioms, shorthands,
      code.sourceText⟩
  | _ => none

/-- Drops what a task does not need. -/
def prune (j : Json) : Json :=
  let names (fields : List Field) : List String := fields.flatMap Field.names
  let entries (fields : List Field) : Json → Json
    | .arr items => .arr (items.map (Json.keepFields (names fields)))
    | j => j
  let j := j.changeField "loops" 2 (entries LoopSource.fields)
  let j := j.changeField "shorthands" 4 (entries ShorthandDef.fields)
  j.keepFields (names fields)

/-- Reads the text of a task. -/
def ofText? (text : String) : Option Task := Json.readText? prune ofJson? text

end Task

/-- A field of a task that holds a formula or the program. -/
inductive TaskField where
  /-- The precondition. -/
  | precondition
  /-- The postcondition. -/
  | postcondition
  /-- The invariant of a loop, counted from one. -/
  | invariant (loop : Nat)
  /-- The bound of a loop, counted from one. -/
  | bound (loop : Nat)
  /-- The program. -/
  | code
  deriving DecidableEq

/-- A field in words. -/
def TaskField.describe : TaskField → String
  | .precondition => "the precondition"
  | .postcondition => "the postcondition"
  | .invariant loop => s!"the invariant of loop #{loop}"
  | .bound loop => s!"the bound of loop #{loop}"
  | .code => "the code"

namespace Task

/-- The value of a field, or the field itself among the faulty ones. -/
def check {α : Type} (field : TaskField) (value : Option α) : List TaskField :=
  match value with
  | some _ => []
  | none => [field]

/-- The specifications of loops, and the fields among them that cannot be read. -/
def readLoops : Nat → List LoopSource → List LoopSpec × List TaskField
  | _, [] => ([], [])
  | n, l :: ls =>
    let invariant := Predicate.ofText? l.invariant
    let bound := IntExpr.ofText? l.bound
    let (specs, faults) := readLoops (n + 1) ls
    let faults := check (.invariant n) invariant ++ check (.bound n) bound ++ faults
    match invariant, bound with
    | some invariant, some bound => (⟨invariant, bound⟩ :: specs, faults)
    | _, _ => (specs, faults)

/-- The specification and the program of a task, or the fields that cannot be read. -/
def read (t : Task) : Except (List TaskField) (Spec × Program) :=
  let precondition := Predicate.ofText? t.precondition
  let postcondition := Predicate.ofText? t.postcondition
  let (loops, loopFaults) := readLoops 1 t.loops
  let program := Program.ofText? t.code
  let faults := check .precondition precondition ++ check .postcondition postcondition ++
    loopFaults ++ check .code program
  match precondition, postcondition, program, faults with
  | some precondition, some postcondition, some program, [] =>
    .ok (⟨precondition, postcondition, loops⟩, program)
  | _, _, _, faults => .error faults

end Task

end GuardedCommand
