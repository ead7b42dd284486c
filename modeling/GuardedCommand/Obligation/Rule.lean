import GuardedCommand.Obligation.Elementary
import GuardedCommand.Obligation.Frame

/-! # Proof rules

To prove a triple `{Q} S {R}` is to prove the premises of the rule for `S`. The rule is chosen by
the last loop of `S`, failing that by its first choice.

For `{Q} I; if B₁ → C₁ | … | Bₙ → Cₙ fi; J {R}` the premises are

1. `{Q} I {B₁ ∨ … ∨ Bₙ}`,
2. `{Q ∧ wp(I, Bᵢ)} I; Cᵢ; J {R}` for each branch.

For `{Q} I; do B₁ → C₁ | … | Bₙ → Cₙ od; J {R}` with invariant `P` and bound `t` they are

1. `{Q} I {P}`,
2. `{P ∧ Bᵢ} Cᵢ {P}` for each branch,
3. `{P ∧ ¬(B₁ ∨ … ∨ Bₙ)} J {R}`,
4. `P ∧ (B₁ ∨ … ∨ Bₙ) ⇒ t > 0`,
5. `{P ∧ Bᵢ} x := t; Cᵢ′ {t < x}` for each branch, where `Cᵢ′` is `Cᵢ` without its loops and `x` is
   new,
6. `{x = t} X′ {x = t}` for each body `X` of a loop inside this one, again without loops and with a
   new `x`: no iteration of an inner loop changes `t`.

Every premise is lighter than the triple it is a premise of, see `Rule.below_of_mem_premises`.
-/

namespace GuardedCommand

/-- A command sequence with what holds before and after it. -/
structure Triple where
  /-- What holds before. -/
  pre : Predicate
  /-- What has to hold after. -/
  post : Predicate
  /-- The commands in between. -/
  commands : List Command

/-- Number of choices and loops of a triple. -/
def Triple.weight (t : Triple) : Nat :=
  Command.weightSeq t.commands

/-- What a premise asks for. -/
inductive Goal where
  /-- A predicate that holds in every state. -/
  | fact (p : Predicate)
  /-- A triple, or the reason why there is none. -/
  | triple (t : Except WpError Triple)
  /-- A triple about a new auxiliary name, which is spelled with the letter `stem`. -/
  | auxiliary (stem : Char) (t : String → Triple)

/-- A premise of a proof rule and the frame of its obligations. -/
structure Premise where
  /-- The step of the derivation. -/
  frame : Frame
  /-- What is to be proved. -/
  goal : Goal

/-- The premises for a choice between `before` and `after`. -/
def Choice.premises (g : Choice) (before after : List Command) (q r : Predicate) :
    List Premise :=
  let before := Command.orSkip before g.range
  let after := Command.orSkip after g.range
  let textOf cs := (Command.rangeOf cs).getD g.range
  { frame := { kind := .choice, step := some 1, range := textOf before }
    goal := .triple (.ok ⟨q, .anyOf g.guards, before⟩) } ::
  ((g.guards.zip g.bodies).zipIdx 1).map fun ((guard, body), i) =>
    let commands := before ++ body ++ after
    { frame := { kind := .choice, step := some 2, branch := some i, range := textOf commands }
      goal := .triple do
        let reachable ← Command.wpSeq guard before
        .ok ⟨q.and reachable, r, commands⟩ }

namespace Loop

/-- A frame of the rule for this loop. -/
def frame (l : Loop) (step : Nat) (text : Option TextRange) : Frame :=
  { kind := .loop, step := some step, loop := some l.index, range := text.getD l.range }

/-- The branches of a loop, counted from `1`. -/
def branches (l : Loop) : List ((Predicate × List Command) × Nat) :=
  (l.guards.zip l.bodies).zipIdx 1

/-- Premise 1: the invariant holds on entry. -/
def entry (l : Loop) (spec : LoopSpec) (before : List Command) (q : Predicate) : Premise :=
  let before := Command.orSkip before l.range
  { frame := l.frame 1 (Command.rangeOf before)
    goal := .triple (.ok ⟨q, spec.invariant, before⟩) }

/-- Premise 2: a branch keeps the invariant. -/
def preservation (l : Loop) (spec : LoopSpec) :
    (Predicate × List Command) × Nat → Premise
  | ((guard, body), i) =>
    { frame := { l.frame 2 (Command.rangeOf body) with branch := some i }
      goal := .triple (.ok ⟨spec.invariant.and guard, spec.invariant, body⟩) }

/-- Premise 3: the invariant is enough when the loop ends. -/
def exit (l : Loop) (spec : LoopSpec) (after : List Command) (r : Predicate) : Premise :=
  let after := Command.orSkip after l.range
  { frame := l.frame 3 (Command.rangeOf after)
    goal := .triple (.ok ⟨spec.invariant.and (.not (.anyOf l.guards)), r, after⟩) }

/-- Premise 4: the bound is positive while the loop goes on. -/
def positivity (l : Loop) (spec : LoopSpec) : Premise :=
  { frame := l.frame 4 none
    goal := .fact ((spec.invariant.and (.anyOf l.guards)).implies
      (.comp .gt spec.bound (.const 0))) }

/-- Premise 5: a branch decreases the bound, apart from the loops inside it. -/
def decrease (l : Loop) (spec : LoopSpec) : (Predicate × List Command) × Nat → Premise
  | ((guard, body), i) =>
    let stripped := Command.stripLoops body
    let text := (stripped.head?.map Command.range).getD l.range
    { frame := { l.frame 5 (Command.rangeOf body) with branch := some i }
      goal := .auxiliary 't' fun x =>
        ⟨spec.invariant.and guard, .comp .lt spec.bound (.name x),
          .snapshot x spec.bound text :: stripped⟩ }

/-- Premise 6: a body of the inner loop `m` leaves the bound alone, apart from the loops inside
it. -/
def stability (l : Loop) (spec : LoopSpec) (m : Loop) : List Command × Nat → Premise
  | (body, j) =>
    let text := (Command.rangeOf body).getD m.range
    { frame := { l.frame 6 (some text) with branch := some j, nestedLoop := some m.index }
      goal := .auxiliary 'T' fun x =>
        let unchanged := .comp .eq (.name x) spec.bound
        ⟨unchanged, unchanged, Command.stripLoops body⟩ }

/-- The premises for a loop between `before` and `after`. -/
def premises (l : Loop) (spec : LoopSpec) (before after : List Command) (q r : Predicate) :
    List Premise :=
  [l.entry spec before q] ++
  l.branches.map (l.preservation spec) ++
  [l.exit spec after r, l.positivity spec] ++
  l.branches.map (l.decrease spec) ++
  (Command.bodyLoops l.bodies).flatMap fun m => (m.bodies.zipIdx 1).map (l.stability spec m)

end Loop

/-- The rule that applies to a sequence of commands. -/
inductive Rule where
  /-- Nothing is executed. -/
  | empty
  /-- All commands are elementary. -/
  | elementary
  /-- The first choice, as there is no loop. -/
  | choice (before : List Command) (g : Choice) (after : List Command)
  /-- The last loop. -/
  | loop (before : List Command) (l : Loop) (after : List Command)

namespace Rule

/-- The rule for a sequence of commands. -/
def of (commands : List Command) : Rule :=
  if commands.isEmpty then .empty
  else
    match Command.splitLastLoop commands with
    | some (before, l, after) => .loop before l after
    | none =>
      match Command.splitFirstChoice commands with
      | some (before, g, after) => .choice before g after
      | none => .elementary

/-- The premises of the rule for a choice or a loop. A loop needs its specification. -/
def premises (specs : List LoopSpec) (t : Triple) : Rule → Except WpError (List Premise)
  | .empty | .elementary => .ok []
  | .choice before g after => .ok (g.premises before after t.pre t.post)
  | .loop before l after =>
    match specs[l.index - 1]? with
    | some spec => .ok (l.premises spec before after t.pre t.post)
    | none => .error (.spec ⟨.unspecifiedLoop l.index, l.range⟩)

end Rule

/-- Every triple a goal asks for weighs less than `n`. -/
def Goal.Below (n : Nat) : Goal → Prop
  | .fact _ => True
  | .triple t => ∀ t', t = .ok t' → t'.weight < n
  | .auxiliary _ t => ∀ x, (t x).weight < n

/-- The premises for a choice are lighter than the sequence it stands in. -/
theorem Choice.below_of_mem_premises {g : Choice} {before after : List Command} {q r : Predicate}
    {p : Premise} (h : p ∈ g.premises before after q r) :
    p.goal.Below (Command.weightSeq (before ++ .cond g.guards g.bodies g.range :: after)) := by
  simp only [Choice.premises, List.mem_cons, List.mem_map] at h
  rcases h with rfl | ⟨⟨⟨guard, body⟩, i⟩, hb, rfl⟩
  · rintro t' ⟨⟩
    simp only [Triple.weight, Command.weight, Command.weightSeq_orSkip, Command.weightSeq_append,
      Command.weightSeq_cons]
    omega
  · intro t' ht
    have hbody : body ∈ g.bodies := (List.of_mem_zip (List.fst_mem_of_mem_zipIdx hb)).2
    have hle := Command.weightSeq_le_weightBodies hbody
    cases hw : Command.wpSeq guard (Command.orSkip before g.range) with
    | error e =>
      rw [hw] at ht
      cases ht
    | ok reachable =>
      rw [hw] at ht
      cases ht
      simp only [Triple.weight, Command.weight, Command.weightSeq_orSkip, Command.weightSeq_append,
        Command.weightSeq_cons]
      omega

/-- The premises for a loop are lighter than the sequence it stands in. -/
theorem Loop.below_of_mem_premises {l : Loop} {spec : LoopSpec} {before after : List Command}
    {q r : Predicate} {p : Premise} (h : p ∈ l.premises spec before after q r) :
    p.goal.Below
      (Command.weightSeq (before ++ .loop l.index l.guards l.bodies l.range :: after)) := by
  have hbranch : ∀ {guard body i}, ((guard, body), i) ∈ l.branches →
      Command.weightSeq body ≤ Command.weightBodies l.bodies := fun hb =>
    Command.weightSeq_le_weightBodies (List.of_mem_zip (List.fst_mem_of_mem_zipIdx hb)).2
  simp only [Loop.premises, List.mem_append, List.mem_map, List.mem_flatMap, List.mem_cons,
    List.not_mem_nil, or_false] at h
  rcases h with (((rfl | ⟨⟨⟨guard, body⟩, i⟩, hb, rfl⟩) | rfl | rfl) | ⟨⟨⟨guard, body⟩, i⟩, hb, rfl⟩) |
    ⟨m, hm, ⟨body, j⟩, hb, rfl⟩
  · rintro t' ⟨⟩
    simp only [Triple.weight, Command.weight, Command.weightSeq_orSkip, Command.weightSeq_append,
      Command.weightSeq_cons]
    omega
  · rintro t' ⟨⟩
    have := hbranch hb
    simp only [Triple.weight, Command.weight, Command.weightSeq_append, Command.weightSeq_cons]
    omega
  · rintro t' ⟨⟩
    simp only [Triple.weight, Command.weight, Command.weightSeq_orSkip, Command.weightSeq_append,
      Command.weightSeq_cons]
    omega
  · trivial
  · intro x
    have := hbranch hb
    have := Command.weightSeq_stripLoops_le body
    simp only [Triple.weight, Command.weight, Command.weightSeq_append, Command.weightSeq_cons]
    omega
  · intro x
    have hbody : body ∈ m.bodies := List.fst_mem_of_mem_zipIdx hb
    have := Command.weightSeq_le_weightBodies hbody
    have := Command.weightSeq_stripLoops_le body
    have := Command.weightBodies_lt_weightBodies _ hm
    simp only [Triple.weight, Command.weight, Command.weightSeq_append, Command.weightSeq_cons]
    omega

/-- The premises of a rule are lighter than the triple it applies to. -/
theorem Rule.below_of_mem_premises {specs : List LoopSpec} {t : Triple} {ps : List Premise}
    {p : Premise} (hps : (Rule.of t.commands).premises specs t = .ok ps) (h : p ∈ ps) :
    p.goal.Below t.weight := by
  unfold Rule.of at hps
  split at hps
  · cases hps
    cases h
  · split at hps
    · next before l after hs =>
      simp only [Rule.premises] at hps
      split at hps
      · cases hps
        have := Loop.below_of_mem_premises h
        rwa [← Command.eq_of_splitLastLoop hs] at this
      · cases hps
    · split at hps
      · next before g after hs =>
        cases hps
        have := Choice.below_of_mem_premises h
        rwa [← Command.eq_of_splitFirstChoice hs] at this
      · cases hps
        cases h

end GuardedCommand
