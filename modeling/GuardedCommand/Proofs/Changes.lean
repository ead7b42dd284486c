import GuardedCommand.Obligation.Generate
import Mathlib.Data.List.Basic

/-! # Changes that obligations follow

Ranges of text are passed on to the frames of an obligation and never looked at, and nothing of an
assignment counts but its weakest preconditions and its range. A change of the ranges and of the
assignments of a program that respects this much reaches the obligations, or the error that takes
their place, through their ranges only.

* `Change`: what becomes of ranges and assignments, and what is asked of it.
* `Statement.change`, `Command.change`: the change made throughout a program.
* `Frame.change`, `Obligation.change`, `WpError.changeRange`: what is left of it in a derivation.
* `Rule.premises_change`: a rule has the changed premises for changed commands.
* `Triple.obligations_change`, `generate_change`: so has a whole derivation its obligations.
-/

namespace GuardedCommand

/-- An error with its range changed, if it has one. -/
def WpError.changeRange (f : TextRange → TextRange) : WpError → WpError
  | .spec e => .spec { e with range := f e.range }
  | .subst e => .subst e
  | .compound => .compound

/-- A result that is changed by `g`, or an error whose range is changed by `f`. -/
def changeResult {α β : Type} (f : TextRange → TextRange) (g : α → β) :
    Except WpError α → Except WpError β
  | .ok a => .ok (g a)
  | .error e => .error (e.changeRange f)

/-- A result is changed as it is told. -/
@[simp] theorem changeResult_ok {α β : Type} (f : TextRange → TextRange) (g : α → β) (a : α) :
    changeResult f g (.ok a) = .ok (g a) := rfl

/-- The steps of a computation can be changed one by one. -/
theorem changeResult_bind {α β γ δ : Type} {f : TextRange → TextRange} {g : α → β} {h : γ → δ}
    {x : Except WpError α} {k : α → Except WpError γ} {k' : β → Except WpError δ}
    (hk : ∀ a, k' (g a) = changeResult f h (k a)) :
    changeResult f g x >>= k' = changeResult f h (x >>= k) := by
  cases x with
  | ok a => exact hk a
  | error e => rfl

/-- A change of assignments and ranges. Weakest preconditions do not change, and a range that covers
two others follows them. -/
structure Change where
  /-- What an assignment becomes. -/
  assign : Assign → Assign
  /-- What a range becomes. -/
  range : TextRange → TextRange
  range_zero : range .zero = .zero
  range_cover : ∀ first last, range (.cover first last) = .cover (range first) (range last)
  range_assign : ∀ a, (assign a).range = range a.range
  wp_assign : ∀ a post, (assign a).wp post = changeResult range id (a.wp post)

variable (ch : Change)

/-! ## Changed programs -/

namespace Statement

mutual

/-- A statement, changed at any depth. -/
def change : Statement → Statement
  | .abort r => .abort (ch.range r)
  | .skip r => .skip (ch.range r)
  | .assign a => .assign (ch.assign a)
  | .cond guards bodies r => .cond guards (changeBodies bodies) (ch.range r)
  | .loop guards bodies r => .loop guards (changeBodies bodies) (ch.range r)

/-- A changed sequence of statements. -/
def changeSeq : List Statement → List Statement
  | [] => []
  | a :: ss => a.change :: changeSeq ss

/-- Changed bodies. -/
def changeBodies : List (List Statement) → List (List Statement)
  | [] => []
  | b :: bs => changeSeq b :: changeBodies bs

end

mutual

/-- A changed statement has as many loops as before. -/
theorem loops_change : ∀ a : Statement, (a.change ch).loops = a.loops
  | .abort _ | .skip _ | .assign _ => by simp only [change, loops]
  | .cond guards bodies r => by rw [change, loops, loops, bodyLoops_changeBodies bodies]
  | .loop guards bodies r => by rw [change, loops, loops, bodyLoops_changeBodies bodies]

/-- A changed sequence has as many loops as before. -/
theorem countLoops_changeSeq : ∀ ss : List Statement, countLoops (changeSeq ch ss) = countLoops ss
  | [] => by rw [changeSeq]
  | a :: ss => by
    rw [changeSeq, countLoops, countLoops, loops_change a, countLoops_changeSeq ss]

/-- Changed bodies have as many loops as before. -/
theorem bodyLoops_changeBodies : ∀ bs : List (List Statement),
    bodyLoops (changeBodies ch bs) = bodyLoops bs
  | [] => by rw [changeBodies]
  | b :: bs => by
    rw [changeBodies, bodyLoops, bodyLoops, countLoops_changeSeq b, bodyLoops_changeBodies bs]

end

/-- A sequence is changed statement by statement. -/
theorem changeSeq_eq_map (ss : List Statement) : changeSeq ch ss = ss.map (change ch) := by
  induction ss with
  | nil => rw [changeSeq, List.map_nil]
  | cons a ss ih => rw [changeSeq, List.map_cons, ih]

/-- The range of a changed statement is the changed range. -/
theorem range_change (a : Statement) : (a.change ch).range = ch.range a.range := by
  cases a <;> simp only [change, range, ch.range_assign]

end Statement

/-- A changed program. -/
def Program.change (p : Program) : Program :=
  ⟨Statement.changeSeq ch p.statements⟩

/-- The range of a changed program is the changed range. -/
theorem Program.range_change (p : Program) : (p.change ch).range = ch.range p.range := by
  unfold Program.range Program.change Statement.rangeOf
  rw [Statement.changeSeq_eq_map, List.head?_map, List.getLast?_map]
  cases p.statements.head? with
  | none => exact ch.range_zero.symm
  | some first =>
    cases p.statements.getLast? with
    | none => exact ch.range_zero.symm
    | some last =>
      simp only [Option.map_some, Statement.range_change, Option.getD_some, ch.range_cover]

/-! ## Changed commands -/

namespace Command

mutual

/-- A command, changed at any depth. -/
def change : Command → Command
  | .abort r => .abort (ch.range r)
  | .skip r => .skip (ch.range r)
  | .assign a => .assign (ch.assign a)
  | .snapshot x t r => .snapshot x t (ch.range r)
  | .cond guards bodies r => .cond guards (changeBodies bodies) (ch.range r)
  | .loop i guards bodies r => .loop i guards (changeBodies bodies) (ch.range r)

/-- A changed sequence of commands. -/
def changeSeq : List Command → List Command
  | [] => []
  | c :: cs => c.change :: changeSeq cs

/-- Changed bodies. -/
def changeBodies : List (List Command) → List (List Command)
  | [] => []
  | b :: bs => changeSeq b :: changeBodies bs

end

/-- A sequence is changed command by command. -/
theorem changeSeq_eq_map (cs : List Command) : changeSeq ch cs = cs.map (change ch) := by
  induction cs with
  | nil => rw [changeSeq, List.map_nil]
  | cons c cs ih => rw [changeSeq, List.map_cons, ih]

/-- Bodies are changed one by one. -/
theorem changeBodies_eq_map (bs : List (List Command)) :
    changeBodies ch bs = bs.map (changeSeq ch) := by
  induction bs with
  | nil => rw [changeBodies, List.map_nil]
  | cons b bs ih => rw [changeBodies, List.map_cons, ih]

/-- A sequence is changed part by part. -/
theorem changeSeq_append (cs ds : List Command) :
    changeSeq ch (cs ++ ds) = changeSeq ch cs ++ changeSeq ch ds := by
  rw [changeSeq_eq_map, changeSeq_eq_map, changeSeq_eq_map, List.map_append]

/-- The range of a changed command is the changed range. -/
theorem range_change (c : Command) : (c.change ch).range = ch.range c.range := by
  cases c <;> simp only [change, range, ch.range_assign]

/-- The range of a changed sequence is the changed range. -/
theorem rangeOf_changeSeq (cs : List Command) :
    rangeOf (changeSeq ch cs) = (rangeOf cs).map ch.range := by
  unfold rangeOf
  rw [changeSeq_eq_map, List.head?_map, List.getLast?_map]
  cases cs.head? with
  | none => rfl
  | some first =>
    cases cs.getLast? with
    | none => rfl
    | some last => simp only [Option.map_some, range_change, ch.range_cover]

/-- The range that is used where a sequence has none changes as well. -/
theorem getD_rangeOf_changeSeq (cs : List Command) (r : TextRange) :
    (rangeOf (changeSeq ch cs)).getD (ch.range r) = ch.range ((rangeOf cs).getD r) := by
  rw [rangeOf_changeSeq, Option.getD_map]

/-- A `skip` in the place of an empty sequence is changed like the sequence. -/
theorem orSkip_changeSeq (cs : List Command) (r : TextRange) :
    orSkip (changeSeq ch cs) (ch.range r) = changeSeq ch (orSkip cs r) := by
  cases cs with
  | nil => simp only [orSkip, changeSeq, List.isEmpty_nil, if_true, change]
  | cons c cs =>
    simp only [orSkip, changeSeq, List.isEmpty_cons, Bool.false_eq_true, if_false]

mutual

/-- A changed command without its loops is the changed command without loops. -/
theorem stripLoop_change : ∀ c : Command, (c.change ch).stripLoop = changeSeq ch c.stripLoop
  | .abort _ | .skip _ | .assign _ | .snapshot .. | .loop .. => by
    simp only [change, stripLoop, changeSeq]
  | .cond guards bodies r => by
    simp only [change, stripLoop, changeSeq, stripBodies_changeBodies bodies]

/-- A changed sequence without its loops is the changed sequence without loops. -/
theorem stripLoops_changeSeq : ∀ cs : List Command,
    stripLoops (changeSeq ch cs) = changeSeq ch (stripLoops cs)
  | [] => by rw [changeSeq, stripLoops, changeSeq]
  | c :: cs => by
    rw [changeSeq, stripLoops, stripLoops, stripLoop_change c, stripLoops_changeSeq cs,
      changeSeq_append]

/-- Changed bodies without their loops are the changed bodies without loops. -/
theorem stripBodies_changeBodies : ∀ bs : List (List Command),
    stripBodies (changeBodies ch bs) = changeBodies ch (stripBodies bs)
  | [] => by rw [changeBodies, stripBodies, changeBodies]
  | b :: bs => by
    rw [changeBodies, stripBodies, stripBodies, changeBodies, stripLoops_changeSeq b,
      stripBodies_changeBodies bs]

end

end Command

/-- A changed choice. -/
def Choice.change (g : Choice) : Choice :=
  ⟨g.guards, Command.changeBodies ch g.bodies, ch.range g.range⟩

/-- A changed loop. -/
def Loop.change (l : Loop) : Loop :=
  ⟨l.index, l.guards, Command.changeBodies ch l.bodies, ch.range l.range⟩

namespace Command

mutual

/-- The loops in a changed command are the changed loops. -/
theorem nestedLoop_change : ∀ c : Command,
    (c.change ch).nestedLoop = c.nestedLoop.map (Loop.change ch)
  | .abort _ | .skip _ | .assign _ | .snapshot .. => by
    simp only [change, nestedLoop, List.map_nil]
  | .cond guards bodies r => by
    rw [change, nestedLoop, nestedLoop, bodyLoops_changeBodies bodies]
  | .loop i guards bodies r => by
    rw [change, nestedLoop, nestedLoop, bodyLoops_changeBodies bodies, List.map_cons]
    rfl

/-- The loops in a changed sequence are the changed loops. -/
theorem nestedLoops_changeSeq : ∀ cs : List Command,
    nestedLoops (changeSeq ch cs) = (nestedLoops cs).map (Loop.change ch)
  | [] => by rw [changeSeq, nestedLoops, List.map_nil]
  | c :: cs => by
    rw [changeSeq, nestedLoops, nestedLoops, nestedLoop_change c, nestedLoops_changeSeq cs,
      List.map_append]

/-- The loops in changed bodies are the changed loops. -/
theorem bodyLoops_changeBodies : ∀ bs : List (List Command),
    bodyLoops (changeBodies ch bs) = (bodyLoops bs).map (Loop.change ch)
  | [] => by rw [changeBodies, bodyLoops, List.map_nil]
  | b :: bs => by
    rw [changeBodies, bodyLoops, bodyLoops, nestedLoops_changeSeq b, bodyLoops_changeBodies bs,
      List.map_append]

end

/-- A sequence is split at the same loop before and after a change. -/
theorem splitLastLoop_changeSeq (cs : List Command) :
    splitLastLoop (changeSeq ch cs) = (splitLastLoop cs).map fun (before, l, after) =>
      (changeSeq ch before, l.change ch, changeSeq ch after) := by
  induction cs with
  | nil => rw [changeSeq, splitLastLoop, Option.map_none]
  | cons c cs ih =>
    rw [changeSeq]
    unfold splitLastLoop
    rw [ih]
    cases splitLastLoop cs with
    | some split => simp only [Option.map_some, changeSeq]
    | none =>
      -- no loop follows, so it depends on the first command
      cases c <;> simp only [Option.map_none, Option.map_some, change, changeSeq, Loop.change]

/-- A sequence is split at the same choice before and after a change. -/
theorem splitFirstChoice_changeSeq (cs : List Command) :
    splitFirstChoice (changeSeq ch cs) = (splitFirstChoice cs).map fun (before, g, after) =>
      (changeSeq ch before, g.change ch, changeSeq ch after) := by
  induction cs with
  | nil => rw [changeSeq, splitFirstChoice, Option.map_none]
  | cons c cs ih =>
    cases c with
    | cond guards bodies r =>
      simp only [changeSeq, change, splitFirstChoice, Option.map_some, Choice.change]
    | abort _ | skip _ | assign _ | snapshot _ _ _ | loop _ _ _ _ =>
      simp only [changeSeq, change, splitFirstChoice, ih]
      cases splitFirstChoice cs <;> simp only [Option.map_none, Option.map_some, changeSeq, change]

end Command

mutual

/-- Loops get the same numbers before and after a change. -/
theorem Statement.number_change : ∀ (n : Nat) (a : Statement),
    (a.change ch).number n = (a.number n).change ch
  | _, .abort _ | _, .skip _ | _, .assign _ => by
    simp only [Statement.change, Statement.number, Command.change]
  | n, .cond guards bodies r => by
    rw [Statement.change, Statement.number, Statement.number, Command.change,
      Statement.numberBodies_changeBodies n bodies]
  | n, .loop guards bodies r => by
    rw [Statement.change, Statement.number, Statement.number, Command.change,
      Statement.numberBodies_changeBodies (n + 1) bodies]

/-- Numbering a changed sequence changes the numbered one. -/
theorem Statement.numberSeq_changeSeq : ∀ (n : Nat) (ss : List Statement),
    Statement.numberSeq n (Statement.changeSeq ch ss) =
      Command.changeSeq ch (Statement.numberSeq n ss)
  | _, [] => by rw [Statement.changeSeq, Statement.numberSeq, Command.changeSeq]
  | n, a :: ss => by
    rw [Statement.changeSeq, Statement.numberSeq, Statement.numberSeq, Command.changeSeq,
      Statement.number_change n a, Statement.loops_change,
      Statement.numberSeq_changeSeq (n + a.loops) ss]

/-- Numbering changed bodies changes the numbered ones. -/
theorem Statement.numberBodies_changeBodies : ∀ (n : Nat) (bs : List (List Statement)),
    Statement.numberBodies n (Statement.changeBodies ch bs) =
      Command.changeBodies ch (Statement.numberBodies n bs)
  | _, [] => by rw [Statement.changeBodies, Statement.numberBodies, Command.changeBodies]
  | n, b :: bs => by
    rw [Statement.changeBodies, Statement.numberBodies, Statement.numberBodies,
      Command.changeBodies, Statement.numberSeq_changeSeq n b, Statement.countLoops_changeSeq,
      Statement.numberBodies_changeBodies (n + Statement.countLoops b) bs]

end

/-! ## Changed derivations -/

/-- A frame with its range changed. -/
def Frame.change (f : Frame) : Frame :=
  { f with range := ch.range f.range }

/-- An obligation with the ranges of its frames changed. -/
def Obligation.change (o : Obligation) : Obligation :=
  ⟨o.predicate, o.context.map (Frame.change ch)⟩

/-- A triple with its commands changed. -/
def Triple.change (t : Triple) : Triple :=
  ⟨t.pre, t.post, Command.changeSeq ch t.commands⟩

/-- A changed goal. -/
def Goal.change : Goal → Goal
  | .fact p => .fact p
  | .triple t => .triple (changeResult ch.range (Triple.change ch) t)
  | .auxiliary stem t => .auxiliary stem fun x => (t x).change ch

/-- A changed premise. -/
def Premise.change (p : Premise) : Premise :=
  ⟨p.frame.change ch, p.goal.change ch⟩

/-- Changed obligations; the number of auxiliary names is kept. -/
def Derivation.change (d : Derivation) : Derivation :=
  changeResult ch.range (fun (os, n) => (os.map (Obligation.change ch), n)) d

/-! ## Weakest preconditions -/

namespace Command

/-- The precondition of a changed command is the same, and an error has the changed range. -/
theorem wp_change (post : Predicate) (c : Command) :
    (c.change ch).wp post = changeResult ch.range id (c.wp post) := by
  cases c with
  | assign a => simp only [change, wp, ch.wp_assign]
  | snapshot x t r =>
    simp only [change, wp]
    cases post.subst (.single x (.int t)) <;> rfl
  | abort _ | skip _ | cond _ _ _ | loop _ _ _ _ =>
    simp only [change, wp]
    rfl

/-- A changed sequence has the same weakest precondition, or lacks it for the same reason. -/
theorem wpSeq_changeSeq (post : Predicate) (cs : List Command) :
    wpSeq post (changeSeq ch cs) = changeResult ch.range id (wpSeq post cs) := by
  induction cs with
  | nil => rw [changeSeq]; rfl
  | cons c cs ih =>
    rw [changeSeq, wpSeq, wpSeq, ih]
    exact changeResult_bind fun between => wp_change ch between c

end Command

/-! ## Premises -/

/-- The branches of changed bodies. -/
theorem zip_changeBodies (guards : List Predicate) (bodies : List (List Command)) (k : Nat) :
    (guards.zip (Command.changeBodies ch bodies)).zipIdx k =
      ((guards.zip bodies).zipIdx k).map fun ((guard, body), i) =>
        ((guard, Command.changeSeq ch body), i) := by
  rw [Command.changeBodies_eq_map, List.zip_map_right, List.zipIdx_map]
  rfl

/-- The premises of a changed choice are the changed premises. -/
theorem Choice.premises_change (g : Choice) (before after : List Command) (q r : Predicate) :
    (g.change ch).premises (Command.changeSeq ch before) (Command.changeSeq ch after) q r =
      (g.premises before after q r).map (Premise.change ch) := by
  unfold Choice.premises
  simp only [Choice.change, Command.orSkip_changeSeq ch _ g.range, zip_changeBodies,
    List.map_cons, List.map_map, Command.getD_rangeOf_changeSeq]
  congr 1
  refine List.map_congr_left fun branch _ => ?_
  obtain ⟨⟨guard, body⟩, i⟩ := branch
  -- the branch exists if its guard has a precondition before the choice
  have hreachable := Command.wpSeq_changeSeq ch guard (Command.orSkip before g.range)
  simp only [Function.comp_apply, ← Command.changeSeq_append, Command.getD_rangeOf_changeSeq,
    hreachable]
  cases Command.wpSeq guard (Command.orSkip before g.range) <;> rfl

namespace Loop

/-- The frame of a changed loop is the changed frame. -/
theorem frame_change (l : Loop) (step : Nat) (text : Option TextRange) :
    (l.change ch).frame step (text.map ch.range) = (l.frame step text).change ch := by
  cases text <;> rfl

/-- The premise for entering a changed loop is the changed premise. -/
theorem entry_change (l : Loop) (spec : LoopSpec) (before : List Command) (q : Predicate) :
    (l.change ch).entry spec (Command.changeSeq ch before) q =
      (l.entry spec before q).change ch := by
  have hbefore : Command.orSkip (Command.changeSeq ch before) (l.change ch).range =
      Command.changeSeq ch (Command.orSkip before l.range) :=
    Command.orSkip_changeSeq ch before l.range
  simp only [entry, hbefore, Command.rangeOf_changeSeq, frame_change]
  rfl

/-- The premise for the invariant of a changed loop is the changed premise. -/
theorem preservation_change (l : Loop) (spec : LoopSpec) (guard : Predicate)
    (body : List Command) (i : Nat) :
    (l.change ch).preservation spec ((guard, Command.changeSeq ch body), i) =
      (l.preservation spec ((guard, body), i)).change ch := by
  simp only [preservation, Command.rangeOf_changeSeq, frame_change]
  rfl

/-- The premise for leaving a changed loop is the changed premise. -/
theorem exit_change (l : Loop) (spec : LoopSpec) (after : List Command) (r : Predicate) :
    (l.change ch).exit spec (Command.changeSeq ch after) r = (l.exit spec after r).change ch := by
  have hafter : Command.orSkip (Command.changeSeq ch after) (l.change ch).range =
      Command.changeSeq ch (Command.orSkip after l.range) :=
    Command.orSkip_changeSeq ch after l.range
  simp only [exit, hafter, Command.rangeOf_changeSeq, frame_change]
  rfl

/-- The premise for a positive bound of a changed loop is the changed premise. -/
theorem positivity_change (l : Loop) (spec : LoopSpec) :
    (l.change ch).positivity spec = (l.positivity spec).change ch := rfl

/-- The premise for a decreasing bound of a changed loop is the changed premise. -/
theorem decrease_change (l : Loop) (spec : LoopSpec) (guard : Predicate) (body : List Command)
    (i : Nat) :
    (l.change ch).decrease spec ((guard, Command.changeSeq ch body), i) =
      (l.decrease spec ((guard, body), i)).change ch := by
  -- the bound is recorded where the body begins, or else at the loop
  have htext : ((Command.changeSeq ch (Command.stripLoops body)).head?.map Command.range).getD
      (l.change ch).range =
        ch.range (((Command.stripLoops body).head?.map Command.range).getD l.range) := by
    rw [Command.changeSeq_eq_map, List.head?_map, Option.map_map]
    cases (Command.stripLoops body).head? with
    | none => rfl
    | some c => exact Command.range_change ch c
  simp only [decrease, Command.stripLoops_changeSeq, htext, Command.rangeOf_changeSeq,
    frame_change]
  simp only [Premise.change, Goal.change, Triple.change, Command.changeSeq, Command.change]
  rfl

/-- The premise for a bound that an inner loop keeps is changed with both loops. -/
theorem stability_change (l : Loop) (spec : LoopSpec) (m : Loop) (body : List Command) (j : Nat) :
    (l.change ch).stability spec (m.change ch) (Command.changeSeq ch body, j) =
      (l.stability spec m (body, j)).change ch := by
  have htext : (Command.rangeOf (Command.changeSeq ch body)).getD (m.change ch).range =
      ch.range ((Command.rangeOf body).getD m.range) :=
    Command.getD_rangeOf_changeSeq ch body m.range
  simp only [stability, htext, Command.stripLoops_changeSeq]
  rfl

/-- The premises of a changed loop are its changed premises. -/
theorem premises_change (l : Loop) (spec : LoopSpec) (before after : List Command)
    (q r : Predicate) :
    (l.change ch).premises spec (Command.changeSeq ch before) (Command.changeSeq ch after) q r =
      (l.premises spec before after q r).map (Premise.change ch) := by
  have hbranches : (l.change ch).branches = l.branches.map fun ((guard, body), i) =>
      ((guard, Command.changeSeq ch body), i) :=
    zip_changeBodies ch l.guards l.bodies 1
  have hloops : Command.bodyLoops (l.change ch).bodies =
      (Command.bodyLoops l.bodies).map (Loop.change ch) :=
    Command.bodyLoops_changeBodies ch l.bodies
  have hpreservation : (l.change ch).branches.map ((l.change ch).preservation spec) =
      (l.branches.map (l.preservation spec)).map (Premise.change ch) := by
    rw [hbranches, List.map_map, List.map_map]
    refine List.map_congr_left fun branch _ => ?_
    exact preservation_change ch l spec branch.1.1 branch.1.2 branch.2
  have hdecrease : (l.change ch).branches.map ((l.change ch).decrease spec) =
      (l.branches.map (l.decrease spec)).map (Premise.change ch) := by
    rw [hbranches, List.map_map, List.map_map]
    refine List.map_congr_left fun branch _ => ?_
    exact decrease_change ch l spec branch.1.1 branch.1.2 branch.2
  have hstability : ∀ m : Loop,
      ((m.change ch).bodies.zipIdx 1).map ((l.change ch).stability spec (m.change ch)) =
        ((m.bodies.zipIdx 1).map (l.stability spec m)).map (Premise.change ch) := by
    intro m
    have hbodies : (m.change ch).bodies = m.bodies.map (Command.changeSeq ch) :=
      Command.changeBodies_eq_map ch m.bodies
    rw [hbodies, List.zipIdx_map, List.map_map, List.map_map]
    exact List.map_congr_left fun body _ => stability_change ch l spec m body.1 body.2
  unfold premises
  rw [hpreservation, hdecrease, hloops, entry_change, exit_change, positivity_change,
    List.flatMap_map]
  simp only [hstability, List.map_append, List.map_cons, List.map_nil, List.map_flatMap]

end Loop

namespace Rule

/-- The rule for changed commands. -/
def change : Rule → Rule
  | .empty => .empty
  | .elementary => .elementary
  | .choice before g after =>
    .choice (Command.changeSeq ch before) (g.change ch) (Command.changeSeq ch after)
  | .loop before l after =>
    .loop (Command.changeSeq ch before) (l.change ch) (Command.changeSeq ch after)

/-- The same rule applies before and after a change. -/
theorem of_changeSeq (cs : List Command) :
    Rule.of (Command.changeSeq ch cs) = (Rule.of cs).change ch := by
  have hempty : (Command.changeSeq ch cs).isEmpty = cs.isEmpty := by
    rw [Command.changeSeq_eq_map, List.isEmpty_map]
  unfold Rule.of
  rw [hempty, Command.splitLastLoop_changeSeq, Command.splitFirstChoice_changeSeq]
  by_cases hcs : cs.isEmpty = true
  · rw [if_pos hcs, if_pos hcs]
    rfl
  · rw [if_neg hcs, if_neg hcs]
    cases Command.splitLastLoop cs with
    | some split => rfl
    | none => cases Command.splitFirstChoice cs <;> rfl

/-- The premises of a changed rule are its changed premises, and it lacks them for the same
reason. -/
theorem premises_change (specs : List LoopSpec) (t : Triple) (rule : Rule) :
    (rule.change ch).premises specs (t.change ch) =
      changeResult ch.range (List.map (Premise.change ch)) (rule.premises specs t) := by
  cases rule with
  | empty | elementary => rfl
  | choice before g after =>
    exact congrArg Except.ok (g.premises_change ch before after t.pre t.post)
  | loop before l after =>
    have hindex : (l.change ch).index = l.index := rfl
    simp only [change, premises, hindex]
    cases specs[l.index - 1]? with
    | none => rfl
    | some spec => exact congrArg Except.ok (l.premises_change ch spec before after t.pre t.post)

end Rule

/-! ## Obligations -/

/-- Derivations that are made one after the other can be changed one by one. -/
theorem Derivation.sequence_change {derive derive' : Premise → Nat → Derivation}
    {ps : List Premise}
    (h : ∀ p ∈ ps, ∀ n, derive' (p.change ch) n = Derivation.change ch (derive p n)) (n : Nat) :
    Derivation.sequence derive' (ps.map (Premise.change ch)) n =
      Derivation.change ch (Derivation.sequence derive ps n) := by
  induction ps generalizing n with
  | nil => rfl
  | cons p ps ih =>
    have hp := h p List.mem_cons_self n
    have hps := ih fun p' hp' => h p' (List.mem_cons_of_mem p hp')
    rw [List.map_cons, Derivation.sequence, Derivation.sequence, hp]
    refine changeResult_bind fun result => ?_
    obtain ⟨first, m⟩ := result
    simp only [hps m]
    refine changeResult_bind fun result' => ?_
    obtain ⟨rest, m'⟩ := result'
    simp only [changeResult_ok, List.map_append]

/-- A changed premise gives the changed obligations, if triples lighter than `w` do. -/
theorem Premise.obligations_change {specs : List LoopSpec} {w : Nat}
    (h : ∀ t : Triple, t.weight < w → ∀ context n,
      (t.change ch).obligations specs (context.map (Frame.change ch)) n =
        Derivation.change ch (t.obligations specs context n))
    {p : Premise} (hp : p.goal.Below w) (context : List Frame) (n : Nat) :
    (p.change ch).obligations specs (context.map (Frame.change ch)) n =
      Derivation.change ch (p.obligations specs context n) := by
  obtain ⟨frame, goal⟩ := p
  have hcontext : context.map (Frame.change ch) ++ [frame.change ch] =
      (context ++ [frame]).map (Frame.change ch) := by
    rw [List.map_append, List.map_cons, List.map_nil]
  cases goal with
  | fact q =>
    simp only [Premise.change, Goal.change, Premise.obligations, hcontext]
    rfl
  | triple t =>
    cases t with
    | error e => rfl
    | ok t =>
      simp only [Premise.change, Goal.change, changeResult_ok, Premise.obligations, hcontext]
      exact h t (hp t rfl) (context ++ [frame]) n
  | auxiliary stem t =>
    simp only [Premise.change, Goal.change, Premise.obligations, hcontext]
    -- The name does not depend on the change, only on how many were given out.
    exact h (t (auxiliaryName stem n)) (hp _) (context ++ [frame]) (n + 1)

/-- The one obligation of a triple without commands. -/
theorem Triple.obligations_of_empty {specs : List LoopSpec} {t : Triple} {context : List Frame}
    {n : Nat} (h : Rule.of t.commands = .empty) :
    t.obligations specs context n = .ok ([⟨t.pre.implies t.post,
      if context.isEmpty then [{ kind := .sequence, range := .zero }] else context⟩], n) := by
  rw [Triple.obligations]
  simp only [h]

/-- The one obligation of a triple whose commands are elementary. -/
theorem Triple.obligations_of_elementary {specs : List LoopSpec} {t : Triple}
    {context : List Frame} {n : Nat} (h : Rule.of t.commands = .elementary) :
    let text := (Command.rangeOf t.commands).getD .zero
    t.obligations specs context n = (Command.wpSeq t.post t.commands >>= fun pre =>
      .ok ([⟨t.pre.implies pre, context ++ [{ kind := .sequence, range := text }]⟩], n)) := by
  rw [Triple.obligations]
  simp only [h]

/-- A changed triple gives the changed obligations of the triple, or its changed error. -/
theorem Triple.obligations_change (specs : List LoopSpec) (t : Triple) (context : List Frame)
    (n : Nat) :
    (t.change ch).obligations specs (context.map (Frame.change ch)) n =
      Derivation.change ch (t.obligations specs context n) := by
  -- premises are lighter than the triple
  induction hw : t.weight using Nat.strongRecOn generalizing t context n with
  | _ w ih =>
    subst hw
    have hrule : Rule.of (t.change ch).commands = (Rule.of t.commands).change ch :=
      Rule.of_changeSeq ch t.commands
    have hlighter : ∀ t' : Triple, t'.weight < t.weight → ∀ context n,
        (t'.change ch).obligations specs (context.map (Frame.change ch)) n =
          Derivation.change ch (t'.obligations specs context n) :=
      fun t' ht' context n => ih t'.weight ht' t' context n rfl
    by_cases hempty : Rule.of t.commands = .empty
    · rw [hempty] at hrule
      rw [Triple.obligations_of_empty hrule, Triple.obligations_of_empty hempty]
      cases context with
      | nil =>
        -- the one frame has the all-zero range, which does not change
        have hframe : Frame.change ch { kind := .sequence, range := .zero } =
            { kind := .sequence, range := .zero } := by
          simp only [Frame.change, ch.range_zero]
        simp only [Derivation.change, changeResult_ok, List.map_cons, List.map_nil,
          Obligation.change, List.isEmpty_nil, if_true, hframe]
        rfl
      | cons f context => rfl
    by_cases helem : Rule.of t.commands = .elementary
    · rw [helem] at hrule
      have hwp : Command.wpSeq (t.change ch).post (t.change ch).commands =
          changeResult ch.range id (Command.wpSeq t.post t.commands) :=
        Command.wpSeq_changeSeq ch t.post t.commands
      have htext : (Command.rangeOf (t.change ch).commands).getD .zero =
          ch.range ((Command.rangeOf t.commands).getD .zero) := by
        rw [← Command.getD_rangeOf_changeSeq, ch.range_zero]
        rfl
      rw [Triple.obligations_of_elementary hrule, Triple.obligations_of_elementary helem, hwp,
        htext]
      refine changeResult_bind fun pre => ?_
      simp only [changeResult_ok, List.map_cons, List.map_nil, Obligation.change,
        List.map_append]
      rfl
    · -- the premises go one by one
      have hempty' : Rule.of (t.change ch).commands ≠ .empty := by
        rw [hrule]
        cases hof : Rule.of t.commands <;> simp_all [Rule.change]
      have helem' : Rule.of (t.change ch).commands ≠ .elementary := by
        rw [hrule]
        cases hof : Rule.of t.commands <;> simp_all [Rule.change]
      rw [Triple.obligations_of_premises hempty' helem',
        Triple.obligations_of_premises hempty helem, hrule, Rule.premises_change]
      cases hps : (Rule.of t.commands).premises specs t with
      | error e => rfl
      | ok ps =>
        refine Derivation.sequence_change ch (fun p hp m => ?_) n
        exact Premise.obligations_change ch hlighter (Rule.below_of_mem_premises hps hp) context m

/-- A changed program has the obligations of the program with changed ranges, or lacks them for the
same reason. -/
theorem generate_change (spec : Spec) (program : Program) :
    generate spec (program.change ch) =
      changeResult ch.range (List.map (Obligation.change ch)) (generate spec program) := by
  have hcommands : Statement.numberSeq 0 (program.change ch).statements =
      Command.changeSeq ch (Statement.numberSeq 0 program.statements) :=
    Statement.numberSeq_changeSeq ch 0 program.statements
  have hobligations := Triple.obligations_change ch spec.loops
    ⟨spec.precondition, spec.postcondition, Statement.numberSeq 0 program.statements⟩ [] 0
  unfold generate
  simp only [hcommands, Command.nestedLoops_changeSeq, List.length_map, Program.range_change]
  by_cases hloops : (Command.nestedLoops (Statement.numberSeq 0 program.statements)).length =
      spec.loops.length
  · rw [if_neg (not_not.mpr hloops), if_neg (not_not.mpr hloops)]
    have hstart : Triple.obligations spec.loops ⟨spec.precondition, spec.postcondition,
        Command.changeSeq ch (Statement.numberSeq 0 program.statements)⟩ [] 0 = _ := hobligations
    rw [hstart]
    cases Triple.obligations spec.loops
      ⟨spec.precondition, spec.postcondition, Statement.numberSeq 0 program.statements⟩ [] 0 <;> rfl
  · rw [if_pos hloops, if_pos hloops]
    rfl

end GuardedCommand
