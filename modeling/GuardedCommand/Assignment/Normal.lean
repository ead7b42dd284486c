import GuardedCommand.Specification.Basic

/-! # Normal form of assignments

An assignment may write elements of maps, several of the same map at once. Its normal form assigns
to plain names only, each of them once: writing `a[i]` becomes writing the map `(a; i:x)` to `a`,
and further writes to the same map are stored on top of the first. All selectors and values are
still read before anything is written.

* `Variable.splitTarget`: the name and the selectors of a target.
* `writeThrough`: a map with the element at the end of a path of selectors replaced.
* `Assign.normalize`, `Program.normalize`: the normal form of an assignment and of a program.
-/

namespace GuardedCommand

/-- Splits the target `a[i][j]` into `a` and `[i, j]`. The base of a target must be a name; the
offending part is returned if it is a modified map. -/
def Variable.splitTarget : Variable → Except Variable (String × List IntExpr)
  | .name x => .ok (x, [])
  | .select b i => do
    let (root, selectors) ← b.splitTarget
    .ok (root, selectors ++ [i])
  | .store b i e => .error (.store b i e)

/-- The map `current` with `value` at the end of the path `selectors`. -/
def writeThrough (current : Variable) : List IntExpr → Expr → Expr
  | [], value => value
  | i :: rest, value => .map (.store current i (writeThrough (.select current i) rest value))

/-- A name with the value it receives. -/
structure Target where
  /-- The name assigned to. -/
  name : String
  /-- Whether the name itself is written, rather than its elements. -/
  whole : Bool
  /-- The value the name receives. -/
  value : Expr

namespace Target

/-- Adds the write of `value` to the element `root[selectors…]`, on top of an earlier write to the
same name. A name and its elements cannot be written together. -/
def write (root : String) (selectors : List IntExpr) (value : Expr) :
    List Target → Except SpecFault (List Target)
  | [] => .ok [⟨root, selectors.isEmpty, writeThrough (.name root) selectors value⟩]
  | t :: ts =>
    if t.name = root then
      if selectors.isEmpty || t.whole then .error (.wholeAndElement root)
      else
        match t.value.asVariable with
        | none => .error (.notAMap root)
        | some current => .ok ({ t with value := writeThrough current selectors value } :: ts)
    else do
      let ts' ← write root selectors value ts
      .ok (t :: ts')

/-- Adds the write of `value` to the target `lvalue`. -/
def add (targets : List Target) (lvalue : Variable) (value : Expr) :
    Except SpecFault (List Target) :=
  match lvalue.splitTarget with
  | .error v => .error (.storeTarget v)
  | .ok (root, selectors) => write root selectors value targets

/-- The targets of a list of writes, in order of first mention. -/
def collect : List (Variable × Expr) → List Target → Except SpecFault (List Target)
  | [], targets => .ok targets
  | (lvalue, value) :: rest, targets => do
    let targets ← add targets lvalue value
    collect rest targets

end Target

/-- The first variable that is equal to one before it. -/
def firstRepeated (seen : List Variable) : List Variable → Option Variable
  | [] => none
  | v :: vs => if v ∈ seen then some v else firstRepeated (v :: seen) vs

/-- The targets of an assignment, or its fault. -/
def Assign.targets (a : Assign) : Except SpecFault (List Target) :=
  if a.lvalues.length ≠ a.rvalues.length then
    .error (.targetCount a.lvalues.length a.rvalues.length)
  else
    match firstRepeated [] a.lvalues with
    | some v => .error (.repeatedTarget v)
    | none => Target.collect (a.lvalues.zip a.rvalues) []

/-- The assignment with the same effect that writes each name once and nothing but names. -/
def Assign.normalize (a : Assign) : Except SpecError Assign :=
  match a.targets with
  | .error fault => .error ⟨fault, a.range⟩
  | .ok targets =>
    .ok ⟨targets.map fun t => .name t.name, targets.map Target.value, a.range⟩

namespace Statement

mutual

/-- The statement with every assignment in normal form. -/
def normalize : Statement → Except SpecError Statement
  | .abort r => .ok (.abort r)
  | .skip r => .ok (.skip r)
  | .assign a => do
    let a ← a.normalize
    .ok (.assign a)
  | .cond guards bodies r => do
    let bodies ← normalizeBodies bodies
    .ok (.cond guards bodies r)
  | .loop guards bodies r => do
    let bodies ← normalizeBodies bodies
    .ok (.loop guards bodies r)

/-- The sequence with every assignment in normal form. -/
def normalizeSeq : List Statement → Except SpecError (List Statement)
  | [] => .ok []
  | s :: ss => do
    let s ← s.normalize
    let ss ← normalizeSeq ss
    .ok (s :: ss)

/-- The bodies with every assignment in normal form. -/
def normalizeBodies : List (List Statement) → Except SpecError (List (List Statement))
  | [] => .ok []
  | b :: bs => do
    let b ← normalizeSeq b
    let bs ← normalizeBodies bs
    .ok (b :: bs)

end

end Statement

/-- The program with every assignment in normal form, at any depth. -/
def Program.normalize (p : Program) : Except SpecError Program := do
  let statements ← Statement.normalizeSeq p.statements
  .ok ⟨statements⟩

end GuardedCommand
