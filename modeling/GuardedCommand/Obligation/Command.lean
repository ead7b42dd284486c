import GuardedCommand.Syntax.Statement

/-! # Numbered commands

The commands proof obligations are generated for. They are statements whose loops carry their number
in the order of the text, so that every copy of a loop finds its own specification, together with
the recording of a bound under a new name.

* `Statement.number`: the commands of a program, its loops numbered from `1`.
* `Command.stripLoops`: a sequence of commands without its loops.
* `Command.nestedLoops`: all loops of a sequence of commands, in the order of the text.
* `Command.weight`: the number of choices and loops, which every proof rule decreases.
-/

namespace GuardedCommand

/-- A statement with numbered loops, or the recording of a bound. -/
inductive Command where
  /-- The command that always fails. -/
  | abort (range : TextRange)
  /-- The command that does nothing. -/
  | skip (range : TextRange)
  /-- A simultaneous assignment. -/
  | assign (a : Assign)
  /-- The assignment of the current value of `bound` to the auxiliary name `x`. -/
  | snapshot (x : String) (bound : IntExpr) (range : TextRange)
  /-- A choice between guarded branches. -/
  | cond (guards : List Predicate) (bodies : List (List Command)) (range : TextRange)
  /-- The loop with the given number. -/
  | loop (index : Nat) (guards : List Predicate) (bodies : List (List Command)) (range : TextRange)

/-- The parts of a choice. -/
structure Choice where
  /-- The guards. -/
  guards : List Predicate
  /-- The bodies. -/
  bodies : List (List Command)
  /-- Where the choice was written. -/
  range : TextRange

/-- The parts of a numbered loop. -/
structure Loop where
  /-- The number of the loop in the order of the text, from `1`. -/
  index : Nat
  /-- The guards. -/
  guards : List Predicate
  /-- The bodies. -/
  bodies : List (List Command)
  /-- Where the loop was written. -/
  range : TextRange

namespace Statement

mutual

/-- The command of a statement that follows `n` loops. -/
def number (n : Nat) : Statement → Command
  | .abort r => .abort r
  | .skip r => .skip r
  | .assign a => .assign a
  | .cond guards bodies r => .cond guards (numberBodies n bodies) r
  | .loop guards bodies r => .loop (n + 1) guards (numberBodies (n + 1) bodies) r

/-- The commands of a sequence of statements that follows `n` loops. -/
def numberSeq (n : Nat) : List Statement → List Command
  | [] => []
  | s :: ss => s.number n :: numberSeq (n + s.loops) ss

/-- The commands of bodies that follow `n` loops. -/
def numberBodies (n : Nat) : List (List Statement) → List (List Command)
  | [] => []
  | b :: bs => numberSeq n b :: numberBodies (n + countLoops b) bs

end

end Statement

namespace Command

/-- Where a command was written. -/
def range : Command → TextRange
  | .abort r | .skip r => r
  | .assign a => a.range
  | .snapshot _ _ r => r
  | .cond _ _ r | .loop _ _ _ r => r

/-- The text from the first to the last command of a sequence, if it has any. -/
def rangeOf (cs : List Command) : Option TextRange :=
  match cs.head?, cs.getLast? with
  | some first, some last => some (.cover first.range last.range)
  | _, _ => none

/-- A sequence of commands, with the command that does nothing in place of an empty one. -/
def orSkip (cs : List Command) (r : TextRange) : List Command :=
  if cs.isEmpty then [.skip r] else cs

/-! ## Loops of a sequence -/

mutual

/-- A command without its loops; nothing is left of a loop. -/
def stripLoop : Command → List Command
  | .loop .. => []
  | .cond guards bodies r => [.cond guards (stripBodies bodies) r]
  | .abort r => [.abort r]
  | .skip r => [.skip r]
  | .assign a => [.assign a]
  | .snapshot x t r => [.snapshot x t r]

/-- A sequence of commands without its loops. -/
def stripLoops : List Command → List Command
  | [] => []
  | c :: cs => c.stripLoop ++ stripLoops cs

/-- Bodies without their loops. -/
def stripBodies : List (List Command) → List (List Command)
  | [] => []
  | b :: bs => stripLoops b :: stripBodies bs

end

mutual

/-- The loops of a command, itself included, in the order of the text. -/
def nestedLoop : Command → List Loop
  | .loop i guards bodies r => ⟨i, guards, bodies, r⟩ :: bodyLoops bodies
  | .cond _ bodies _ => bodyLoops bodies
  | .abort _ | .skip _ | .assign _ | .snapshot .. => []

/-- The loops of a sequence of commands, in the order of the text. -/
def nestedLoops : List Command → List Loop
  | [] => []
  | c :: cs => c.nestedLoop ++ nestedLoops cs

/-- The loops of bodies, in the order of the text. -/
def bodyLoops : List (List Command) → List Loop
  | [] => []
  | b :: bs => nestedLoops b ++ bodyLoops bs

end

/-! ## Weight -/

mutual

/-- Number of choices and loops of a command, itself included. -/
def weight : Command → Nat
  | .cond _ bodies _ => weightBodies bodies + 1
  | .loop _ _ bodies _ => weightBodies bodies + 1
  | .abort _ | .skip _ | .assign _ | .snapshot .. => 0

/-- Number of choices and loops of a sequence of commands. -/
def weightSeq : List Command → Nat
  | [] => 0
  | c :: cs => c.weight + weightSeq cs

/-- Number of choices and loops of bodies. -/
def weightBodies : List (List Command) → Nat
  | [] => 0
  | b :: bs => weightSeq b + weightBodies bs

end

/-- An empty sequence has no choices and loops. -/
@[simp] theorem weightSeq_nil : weightSeq [] = 0 := by simp [weightSeq]

/-- The weight of a sequence is that of its first command and that of the rest. -/
@[simp] theorem weightSeq_cons (c : Command) (cs : List Command) :
    weightSeq (c :: cs) = c.weight + weightSeq cs := by simp [weightSeq]

/-- Weights of sequences add up. -/
@[simp] theorem weightSeq_append (cs ds : List Command) :
    weightSeq (cs ++ ds) = weightSeq cs + weightSeq ds := by
  induction cs with
  | nil => simp
  | cons c cs ih => simp [ih, Nat.add_assoc]

/-- A `skip` in the place of an empty sequence weighs nothing. -/
@[simp] theorem weightSeq_orSkip (cs : List Command) (r : TextRange) :
    weightSeq (orSkip cs r) = weightSeq cs := by
  unfold orSkip
  split
  · next h => simp [List.isEmpty_iff.mp h, weight]
  · rfl

/-- A body weighs no more than all bodies together. -/
theorem weightSeq_le_weightBodies {b : List Command} {bs : List (List Command)} (h : b ∈ bs) :
    weightSeq b ≤ weightBodies bs := by
  induction bs with
  | nil => cases h
  | cons d ds ih =>
    rcases List.mem_cons.mp h with rfl | h
    · simp [weightBodies]
    · have := ih h
      simp [weightBodies]; omega

mutual

/-- Removing loops adds no weight to a command. -/
theorem weightSeq_stripLoop_le : ∀ c : Command, weightSeq c.stripLoop ≤ c.weight
  | .loop .. => by simp [stripLoop]
  | .cond _ bodies _ => by
    simp [stripLoop, weight, weightBodies_stripBodies_le bodies]
  | .abort _ | .skip _ | .assign _ | .snapshot .. => by simp [stripLoop, weight]

/-- Removing loops adds no weight to a sequence. -/
theorem weightSeq_stripLoops_le : ∀ cs : List Command, weightSeq (stripLoops cs) ≤ weightSeq cs
  | [] => by simp [stripLoops]
  | c :: cs => by
    have := weightSeq_stripLoop_le c
    have := weightSeq_stripLoops_le cs
    simp [stripLoops]; omega

/-- Removing loops adds no weight to bodies. -/
theorem weightBodies_stripBodies_le :
    ∀ bs : List (List Command), weightBodies (stripBodies bs) ≤ weightBodies bs
  | [] => by simp [stripBodies]
  | b :: bs => by
    have := weightSeq_stripLoops_le b
    have := weightBodies_stripBodies_le bs
    simp [stripBodies, weightBodies]; omega

end

mutual

/-- The bodies of a nested loop weigh less than the command it is found in. -/
theorem weightBodies_lt_weight {l : Loop} :
    ∀ c : Command, l ∈ c.nestedLoop → weightBodies l.bodies < c.weight
  | .loop i guards bodies r, h => by
    rcases List.mem_cons.mp (by simpa [nestedLoop] using h) with rfl | h
    · simp [weight]
    · have := weightBodies_lt_weightBodies bodies h
      simp [weight]; omega
  | .cond _ bodies _, h => by
    have := weightBodies_lt_weightBodies bodies (by simpa [nestedLoop] using h)
    simp [weight]; omega
  | .abort _, h | .skip _, h | .assign _, h | .snapshot .., h => by simp [nestedLoop] at h

/-- The bodies of a nested loop weigh less than the sequence it is found in. -/
theorem weightBodies_lt_weightSeq {l : Loop} :
    ∀ cs : List Command, l ∈ nestedLoops cs → weightBodies l.bodies < weightSeq cs
  | [], h => by simp [nestedLoops] at h
  | c :: cs, h => by
    rcases List.mem_append.mp (by simpa only [nestedLoops] using h) with h | h
    · have := weightBodies_lt_weight c h
      simp; omega
    · have := weightBodies_lt_weightSeq cs h
      simp; omega

/-- The bodies of a nested loop weigh less than the bodies it is found in. -/
theorem weightBodies_lt_weightBodies {l : Loop} :
    ∀ bs : List (List Command), l ∈ bodyLoops bs → weightBodies l.bodies < weightBodies bs
  | [], h => by simp [bodyLoops] at h
  | b :: bs, h => by
    rcases List.mem_append.mp (by simpa only [bodyLoops] using h) with h | h
    · have := weightBodies_lt_weightSeq b h
      simp [weightBodies]; omega
    · have := weightBodies_lt_weightBodies bs h
      simp [weightBodies]; omega

end

/-! ## Splitting a sequence at a compound command -/

/-- Splits a sequence at its last loop. -/
def splitLastLoop : List Command → Option (List Command × Loop × List Command)
  | [] => none
  | c :: cs =>
    match splitLastLoop cs with
    | some (before, l, after) => some (c :: before, l, after)
    | none =>
      match c with
      | .loop i guards bodies r => some ([], ⟨i, guards, bodies, r⟩, cs)
      | _ => none

/-- Splits a sequence at its first choice. -/
def splitFirstChoice : List Command → Option (List Command × Choice × List Command)
  | [] => none
  | .cond guards bodies r :: cs => some ([], ⟨guards, bodies, r⟩, cs)
  | c :: cs => (splitFirstChoice cs).map fun (before, g, after) => (c :: before, g, after)

/-- A split at the last loop loses nothing. -/
theorem eq_of_splitLastLoop {cs before after : List Command} {l : Loop}
    (h : splitLastLoop cs = some (before, l, after)) :
    cs = before ++ .loop l.index l.guards l.bodies l.range :: after := by
  induction cs generalizing before with
  | nil => simp [splitLastLoop] at h
  | cons c cs ih =>
    unfold splitLastLoop at h
    split at h
    · next b m a hs =>
      obtain ⟨rfl, rfl, rfl⟩ : c :: b = before ∧ m = l ∧ a = after := by simpa using h
      simp [ih hs]
    · split at h
      · obtain ⟨rfl, rfl, rfl⟩ := by simpa using h
        rfl
      · cases h

/-- A split at the first choice loses nothing. -/
theorem eq_of_splitFirstChoice {cs before after : List Command} {g : Choice}
    (h : splitFirstChoice cs = some (before, g, after)) :
    cs = before ++ .cond g.guards g.bodies g.range :: after := by
  induction cs generalizing before with
  | nil => simp [splitFirstChoice] at h
  | cons c cs ih =>
    unfold splitFirstChoice at h
    split at h
    · cases ‹_ = _›
    · next heq =>
      obtain ⟨rfl, rfl⟩ := by simpa using heq
      obtain ⟨rfl, rfl, rfl⟩ := by simpa using h
      rfl
    · next heq =>
      obtain ⟨rfl, rfl⟩ := by simpa using heq
      obtain ⟨⟨b, m, a⟩, hs, he⟩ := Option.map_eq_some_iff.mp h
      obtain ⟨rfl, rfl, rfl⟩ : _ :: b = before ∧ m = g ∧ a = after := by simpa using he
      simp [ih hs]

end Command

end GuardedCommand
