import GuardedCommand.Proofs.Changes

/-! # Provenance of proof obligations

Statements carry the range of text they were written in, so that the frames of an obligation can say
which text is concerned. Ranges are only passed on, never looked at: whoever erases them from a
program erases them from its obligations, or from the error that takes their place, and changes
nothing else.

* `Statement.rangeless`: all ranges are replaced by the all-zero range.
* `Frame.rangeless`, `Obligation.rangeless`, `WpError.rangeless`: the same for what is derived.
* `Change.eraseRanges`: erasing ranges as a change that obligations follow.
* `generate_rangeless`: without ranges a program has the same obligations without ranges.
* `generate_congr`: programs that differ in their ranges only give the same obligations, or the same
  error, up to ranges.
-/

namespace GuardedCommand

/-! ## Programs without ranges -/

/-- An assignment without its range. -/
def Assign.rangeless (a : Assign) : Assign :=
  { a with range := .zero }

namespace Statement

mutual

/-- A statement without ranges, at any depth. -/
def rangeless : Statement → Statement
  | .abort _ => .abort .zero
  | .skip _ => .skip .zero
  | .assign a => .assign a.rangeless
  | .cond guards bodies _ => .cond guards (rangelessBodies bodies) .zero
  | .loop guards bodies _ => .loop guards (rangelessBodies bodies) .zero

/-- A sequence of statements without ranges. -/
def rangelessSeq : List Statement → List Statement
  | [] => []
  | a :: ss => a.rangeless :: rangelessSeq ss

/-- Bodies without ranges. -/
def rangelessBodies : List (List Statement) → List (List Statement)
  | [] => []
  | b :: bs => rangelessSeq b :: rangelessBodies bs

end

end Statement

/-- A program without ranges. -/
def Program.rangeless (p : Program) : Program :=
  ⟨Statement.rangelessSeq p.statements⟩

/-! ## Derivations without ranges -/

/-- A frame without its range. -/
def Frame.rangeless (f : Frame) : Frame :=
  { f with range := .zero }

/-- An obligation whose frames have no ranges. -/
def Obligation.rangeless (o : Obligation) : Obligation :=
  ⟨o.predicate, o.context.map Frame.rangeless⟩

/-- An error without its range. -/
def WpError.rangeless : WpError → WpError
  | .spec e => .spec { e with range := .zero }
  | .subst e => .subst e
  | .compound => .compound

/-- A result without ranges: `f` takes them from what was computed. -/
def rangelessBy {α β : Type} (f : α → β) : Except WpError α → Except WpError β
  | .ok a => .ok (f a)
  | .error e => .error e.rangeless

/-! ## Erasing ranges as a change -/

/-- Only the error of an assignment knows where the assignment was written. -/
theorem Assign.wp_rangeless (a : Assign) (post : Predicate) :
    a.rangeless.wp post = changeResult (fun _ => .zero) id (a.wp post) := by
  have htargets : a.rangeless.targets = a.targets := rfl
  unfold Assign.wp Assign.normalize
  rw [htargets]
  cases a.targets with
  | error fault => rfl
  | ok ts =>
    simp only [Except.mapError]
    show (Except.mapError WpError.subst (Substitution.ofTargets _ _) >>= _) =
      changeResult (fun _ => .zero) id
        (Except.mapError WpError.subst (Substitution.ofTargets _ _) >>= _)
    cases Substitution.ofTargets (ts.map fun t => .name t.name) (ts.map Target.value) with
    | error e => rfl
    | ok σ =>
      show (post.subst σ).mapError WpError.subst =
        changeResult (fun _ => .zero) id ((post.subst σ).mapError WpError.subst)
      cases post.subst σ <;> rfl

/-- The change that replaces every range by the all-zero range. -/
def Change.eraseRanges : Change where
  assign := Assign.rangeless
  range _ := .zero
  range_zero := rfl
  range_cover _ _ := rfl
  range_assign _ := rfl
  wp_assign := Assign.wp_rangeless

namespace Statement

mutual

/-- A statement changed by erasing the ranges is the statement without ranges. -/
theorem change_eraseRanges : ∀ a : Statement, a.change .eraseRanges = a.rangeless
  | .abort _ | .skip _ | .assign _ => by
    simp only [change, rangeless]
    rfl
  | .cond guards bodies r => by
    rw [change, rangeless, changeBodies_eraseRanges bodies]
    rfl
  | .loop guards bodies r => by
    rw [change, rangeless, changeBodies_eraseRanges bodies]
    rfl

/-- A sequence changed by erasing the ranges is the sequence without ranges. -/
theorem changeSeq_eraseRanges : ∀ ss : List Statement,
    changeSeq .eraseRanges ss = rangelessSeq ss
  | [] => by rw [changeSeq, rangelessSeq]
  | a :: ss => by
    rw [changeSeq, rangelessSeq, change_eraseRanges a, changeSeq_eraseRanges ss]

/-- Bodies changed by erasing the ranges are the bodies without ranges. -/
theorem changeBodies_eraseRanges : ∀ bs : List (List Statement),
    changeBodies .eraseRanges bs = rangelessBodies bs
  | [] => by rw [changeBodies, rangelessBodies]
  | b :: bs => by
    rw [changeBodies, rangelessBodies, changeSeq_eraseRanges b, changeBodies_eraseRanges bs]

end

end Statement

/-- Erasing the ranges of a program erases those of its obligations, or of the error that takes
their place, and changes nothing else. -/
theorem generate_rangeless (spec : Spec) (program : Program) :
    generate spec program.rangeless =
      rangelessBy (List.map Obligation.rangeless) (generate spec program) := by
  have hprogram : program.change .eraseRanges = program.rangeless :=
    congrArg Program.mk (Statement.changeSeq_eraseRanges program.statements)
  rw [← hprogram, generate_change]
  cases generate spec program with
  | ok os => rfl
  | error e => cases e <;> rfl

/-- Both results are obligations, with the same predicates in the same order and with contexts that
differ in ranges only, or both are errors that differ in ranges only. -/
def AgreeUpToRanges : Except WpError (List Obligation) → Except WpError (List Obligation) → Prop
  | .ok os, .ok os' =>
    os.map Obligation.predicate = os'.map Obligation.predicate ∧
      os.map (fun o => o.context.map Frame.rangeless) =
        os'.map (fun o => o.context.map Frame.rangeless)
  | .error e, .error e' => e.rangeless = e'.rangeless
  | _, _ => False

/-- Programs that differ in their ranges only have the same obligations up to ranges, or lack them
for the same reason. -/
theorem generate_congr {spec : Spec} {p p' : Program} (h : p.rangeless = p'.rangeless) :
    AgreeUpToRanges (generate spec p) (generate spec p') := by
  have hsame : rangelessBy (List.map Obligation.rangeless) (generate spec p) =
      rangelessBy (List.map Obligation.rangeless) (generate spec p') := by
    rw [← generate_rangeless, ← generate_rangeless, h]
  -- Errors and obligations are compared without their ranges, so it is not one program alone that
  -- fails.
  cases hp : generate spec p with
  | error e =>
    rw [hp] at hsame
    cases hp' : generate spec p' with
    | error e' =>
      rw [hp'] at hsame
      exact Except.error.inj hsame
    | ok os' =>
      rw [hp'] at hsame
      cases hsame
  | ok os =>
    rw [hp] at hsame
    cases hp' : generate spec p' with
    | error e' =>
      rw [hp'] at hsame
      cases hsame
    | ok os' =>
      rw [hp'] at hsame
      have hos : os.map Obligation.rangeless = os'.map Obligation.rangeless :=
        Except.ok.inj hsame
      constructor
      · have hpredicates := congrArg (List.map Obligation.predicate) hos
        rw [List.map_map, List.map_map] at hpredicates
        exact hpredicates
      · have hcontexts := congrArg (List.map Obligation.context) hos
        rw [List.map_map, List.map_map] at hcontexts
        exact hcontexts

/-- The program `do x > 0 → x := x - 1 od; do x > 0 → x := x - 1 od`, its loops at the given
places. -/
def twins (first second : TextRange) : Program :=
  let x : IntExpr := .name "x"
  let lower (r : TextRange) : Statement :=
    .loop [.comp .gt x (.const 0)] [[.assign ⟨[.name "x"], [.int (.minus x (.const 1))], r⟩]] r
  { statements := [lower first, lower second] }

/-- The equal loops of `twins` are given different bounds. -/
def twinsSpec : Spec where
  precondition := .const true
  postcondition := .comp .le (.name "x") (.const 0)
  loops := [⟨.const true, .name "x"⟩,
    ⟨.comp .le (.name "x") (.const 0), .plus (.name "x") (.const 1)⟩]

/-- Whether two equal loops are also at the same place is of no consequence. -/
theorem twins_agree :
    let here : TextRange := ⟨⟨1, 0⟩, ⟨1, 24⟩⟩
    let there : TextRange := ⟨⟨2, 0⟩, ⟨2, 24⟩⟩
    (twins here there).rangeless = (twins .zero .zero).rangeless ∧
      (generate twinsSpec (twins here there)).toOption.isSome = true ∧
      AgreeUpToRanges (generate twinsSpec (twins here there))
        (generate twinsSpec (twins .zero .zero)) := by
  intro here there
  have hrangeless : (twins here there).rangeless = (twins .zero .zero).rangeless := by
    simp only [twins, Program.rangeless, Statement.rangelessSeq, Statement.rangeless,
      Statement.rangelessBodies, Assign.rangeless]
  exact ⟨hrangeless, by decide +kernel, generate_congr hrangeless⟩

end GuardedCommand
