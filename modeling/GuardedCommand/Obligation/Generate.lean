import GuardedCommand.Obligation.Rule

/-! # Generation of proof obligations

Proof rules are applied to a triple until only elementary command sequences are left; each of these
gives one obligation, `Q ⇒ wp(S, R)`. Premises are treated in the order in which the rules list
them, and auxiliary names are numbered in that order throughout.

* `Triple.obligations`: the obligations of a triple in a context.
* `generate`: the obligations of a program and its specification.
-/

namespace GuardedCommand

/-- Obligations together with the number of auxiliary names used so far, or why there are none. -/
abbrev Derivation := Except WpError (List Obligation × Nat)

namespace Derivation

/-- Runs one derivation for each item, from left to right, and joins their obligations. -/
def sequence {α : Type} (derive : α → Nat → Derivation) : List α → Nat → Derivation
  | [], n => .ok ([], n)
  | a :: as, n => do
    let (first, n) ← derive a n
    let (rest, n) ← sequence derive as n
    .ok (first ++ rest, n)

end Derivation

/-- The auxiliary name with the given letter and number. Its first character is `@`, which no
identifier has. -/
def auxiliaryName (stem : Char) (n : Nat) : String :=
  String.ofList ['@', stem] ++ toString n

/-- The obligations of a triple whose derivation so far is `context`. -/
def Triple.obligations (specs : List LoopSpec) (t : Triple) (context : List Frame) (n : Nat) :
    Derivation :=
  match Rule.of t.commands with
  | .empty =>
    let context := if context.isEmpty then [{ kind := .sequence, range := .zero }] else context
    .ok ([⟨t.pre.implies t.post, context⟩], n)
  | .elementary => do
    let pre ← Command.wpSeq t.post t.commands
    let text := (Command.rangeOf t.commands).getD .zero
    .ok ([⟨t.pre.implies pre, context ++ [{ kind := .sequence, range := text }]⟩], n)
  | _ =>
    match hps : (Rule.of t.commands).premises specs t with
    | .error e => .error e
    | .ok ps =>
      Derivation.sequence (fun ⟨p, hp⟩ n =>
        have := Rule.below_of_mem_premises hps hp
        match hg : p.goal with
        | .fact q => .ok ([⟨q, context ++ [p.frame]⟩], n)
        | .triple (.error e) => .error e
        | .triple (.ok t') => t'.obligations specs (context ++ [p.frame]) n
        | .auxiliary stem t' =>
          (t' (auxiliaryName stem n)).obligations specs (context ++ [p.frame]) (n + 1))
        ps.attach n
termination_by t.weight
decreasing_by
  · rw [hg] at this
    exact this t' rfl
  · rw [hg] at this
    exact this _

/-- The obligations of a premise in a context. -/
def Premise.obligations (specs : List LoopSpec) (context : List Frame) (p : Premise) (n : Nat) :
    Derivation :=
  match p.goal with
  | .fact q => .ok ([⟨q, context ++ [p.frame]⟩], n)
  | .triple (.error e) => .error e
  | .triple (.ok t) => t.obligations specs (context ++ [p.frame]) n
  | .auxiliary stem t =>
    (t (auxiliaryName stem n)).obligations specs (context ++ [p.frame]) (n + 1)

/-- Deriving from the items of a list with their membership is deriving from the items. -/
theorem Derivation.sequence_attachWith {α : Type} {P : α → Prop} (derive : α → Nat → Derivation)
    (as : List α) (h : ∀ a ∈ as, P a) (n : Nat) :
    Derivation.sequence (fun (a : { a // P a }) n => derive a.1 n) (as.attachWith P h) n =
      Derivation.sequence derive as n := by
  induction as generalizing n with
  | nil => rfl
  | cons a as ih =>
    simp only [List.attachWith_cons, Derivation.sequence]
    congr 1
    funext first
    rw [ih]

/-- A choice or a loop gives the obligations of the premises of its rule, in their order. -/
theorem Triple.obligations_of_premises {specs : List LoopSpec} {t : Triple} {context : List Frame}
    {n : Nat} (hempty : Rule.of t.commands ≠ .empty) (helem : Rule.of t.commands ≠ .elementary) :
    t.obligations specs context n =
      ((Rule.of t.commands).premises specs t >>= fun ps =>
        Derivation.sequence (Premise.obligations specs context) ps n) := by
  rw [Triple.obligations]
  split
  · next h => exact absurd h hempty
  · next h => exact absurd h helem
  · split
    · next e hps => rw [hps]; rfl
    · next ps hps =>
      have hbind : ((Rule.of t.commands).premises specs t >>= fun ps =>
          Derivation.sequence (Premise.obligations specs context) ps n) =
            Derivation.sequence (Premise.obligations specs context) ps n := by
        rw [hps]
        rfl
      rw [hbind, ← Derivation.sequence_attachWith _ ps (fun _ h => h) n]
      congr 1
      funext ⟨p, hp⟩ n
      simp only [Premise.obligations]
      split <;> simp_all

/-- The proof obligations that a program and its specification give rise to. Loops and their
specifications are matched by the order of the text. -/
def generate (spec : Spec) (program : Program) : Except WpError (List Obligation) :=
  let commands := Statement.numberSeq 0 program.statements
  let loops := (Command.nestedLoops commands).length
  if loops ≠ spec.loops.length then
    .error (.spec ⟨.loopCount loops spec.loops.length, program.range⟩)
  else
    Prod.fst <$>
      Triple.obligations spec.loops ⟨spec.precondition, spec.postcondition, commands⟩ [] 0

end GuardedCommand
