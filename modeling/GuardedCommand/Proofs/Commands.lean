import GuardedCommand.Obligation.Rule
import GuardedCommand.Proofs.Execution

/-! # Commands as statements

Proof obligations are generated for commands, programs are executed as statements. A command is the
statement without the numbers of its loops; the recording of a bound is an assignment.

* `Command.erase`: the statement of a command; `Statement.erase_number`: numbering loses nothing.
* `Statement.Matched`: every choice and every loop has a body for each of its guards.
* `Command.Hereditary`: properties that pass from a sequence to the bodies of its loops.
* `Command.Composable`: conditions that pass from a sequence to the sequences of all premises.
* `Command.IsElementary`: neither a choice nor a loop; `exists_of_isElementary`: a sequence of these
  leads to a single state or fails.
* `Command.holds_wpSeq`: the weakest precondition of an elementary sequence is exact.
* `Rule.Applies`: what each proof rule applies to.
-/

namespace GuardedCommand

namespace Command

mutual

/-- The statement that a command executes. -/
def erase : Command → Statement
  | .abort r => .abort r
  | .skip r => .skip r
  | .assign a => .assign a
  | .snapshot x t r => .assign ⟨[.name x], [.int t], r⟩
  | .cond guards bodies r => .cond guards (eraseBodies bodies) r
  | .loop _ guards bodies r => .loop guards (eraseBodies bodies) r

/-- The statements that a sequence of commands executes. -/
def eraseSeq : List Command → List Statement
  | [] => []
  | c :: cs => c.erase :: eraseSeq cs

/-- The statements that bodies execute. -/
def eraseBodies : List (List Command) → List (List Statement)
  | [] => []
  | b :: bs => eraseSeq b :: eraseBodies bs

end

/-- The empty sequence as statements. -/
@[simp] theorem eraseSeq_nil : eraseSeq [] = [] := by simp only [eraseSeq]

/-- A sequence is turned into statements command by command. -/
@[simp] theorem eraseSeq_cons (c : Command) (cs : List Command) :
    eraseSeq (c :: cs) = c.erase :: eraseSeq cs := by simp only [eraseSeq]

/-- A sequence is turned into statements part by part. -/
@[simp] theorem eraseSeq_append (cs ds : List Command) :
    eraseSeq (cs ++ ds) = eraseSeq cs ++ eraseSeq ds := by
  induction cs with
  | nil => simp
  | cons c cs ih => simp [ih]

/-- Bodies are turned into statements one by one. -/
theorem eraseBodies_eq_map (bs : List (List Command)) : eraseBodies bs = bs.map eraseSeq := by
  induction bs with
  | nil => simp only [eraseBodies, List.map_nil]
  | cons b bs ih => simp only [eraseBodies, List.map_cons, ih]

/-- As many bodies as before are left. -/
@[simp] theorem length_eraseBodies (bs : List (List Command)) :
    (eraseBodies bs).length = bs.length := by
  rw [eraseBodies_eq_map, List.length_map]

/-- The branches of erased bodies are the erased branches. -/
theorem mem_zip_eraseBodies {guards : List Predicate} {bs : List (List Command)} {g : Predicate}
    {b : List Statement} :
    (g, b) ∈ guards.zip (eraseBodies bs) ↔
      ∃ body, (g, body) ∈ guards.zip bs ∧ eraseSeq body = b := by
  rw [eraseBodies_eq_map, List.zip_map_right, List.mem_map]
  constructor
  · rintro ⟨⟨g', body⟩, hmem, heq⟩
    obtain ⟨rfl, rfl⟩ : g' = g ∧ eraseSeq body = b := by simpa using heq
    exact ⟨body, hmem, rfl⟩
  · rintro ⟨body, hmem, rfl⟩
    exact ⟨(g, body), hmem, rfl⟩

end Command

mutual

/-- Numbering the loops of a statement does not change what it executes. -/
theorem Statement.erase_number : ∀ (n : Nat) (a : Statement), (a.number n).erase = a
  | _, .abort _ | _, .skip _ | _, .assign _ => by simp only [Statement.number, Command.erase]
  | n, .cond guards bodies r => by
    simp only [Statement.number, Command.erase, Statement.eraseBodies_numberBodies]
  | n, .loop guards bodies r => by
    simp only [Statement.number, Command.erase, Statement.eraseBodies_numberBodies]

/-- Numbers are added to a sequence and taken away again. -/
theorem Statement.eraseSeq_numberSeq :
    ∀ (n : Nat) (ss : List Statement), Command.eraseSeq (Statement.numberSeq n ss) = ss
  | _, [] => by simp only [Statement.numberSeq, Command.eraseSeq]
  | n, a :: ss => by
    simp only [Statement.numberSeq, Command.eraseSeq, Statement.erase_number,
      Statement.eraseSeq_numberSeq]

/-- Numbers are added to bodies and taken away again. -/
theorem Statement.eraseBodies_numberBodies :
    ∀ (n : Nat) (bs : List (List Statement)),
      Command.eraseBodies (Statement.numberBodies n bs) = bs
  | _, [] => by simp only [Statement.numberBodies, Command.eraseBodies]
  | n, b :: bs => by
    simp only [Statement.numberBodies, Command.eraseBodies, Statement.eraseSeq_numberSeq,
      Statement.eraseBodies_numberBodies]

end

/-! ## Guards with bodies -/

mutual

/-- At every depth there are at least as many bodies as guards. -/
def Statement.Matched : Statement → Prop
  | .abort _ | .skip _ | .assign _ => True
  | .cond guards bodies _ => guards.length ≤ bodies.length ∧ Statement.MatchedBodies bodies
  | .loop guards bodies _ => guards.length ≤ bodies.length ∧ Statement.MatchedBodies bodies

/-- Every statement of a sequence is matched. -/
def Statement.MatchedSeq : List Statement → Prop
  | [] => True
  | a :: ss => a.Matched ∧ Statement.MatchedSeq ss

/-- Every body is matched. -/
def Statement.MatchedBodies : List (List Statement) → Prop
  | [] => True
  | b :: bs => Statement.MatchedSeq b ∧ Statement.MatchedBodies bs

end

/-- No choice and no loop of a program has more guards than bodies. -/
def Program.Matched (p : Program) : Prop :=
  Statement.MatchedSeq p.statements

namespace Command

/-- The statements of a sequence of commands are matched. -/
def Matched (cs : List Command) : Prop :=
  Statement.MatchedSeq (eraseSeq cs)

/-- The empty sequence has no guards without bodies. -/
@[simp] theorem matched_nil : Matched [] := by simp [Matched, Statement.MatchedSeq]

/-- A sequence is matched if its first command and the rest are. -/
@[simp] theorem matched_cons (c : Command) (cs : List Command) :
    Matched (c :: cs) ↔ c.erase.Matched ∧ Matched cs := by
  simp [Matched, Statement.MatchedSeq]

/-- A sequence is matched if both its parts are. -/
@[simp] theorem matched_append (cs ds : List Command) :
    Matched (cs ++ ds) ↔ Matched cs ∧ Matched ds := by
  induction cs with
  | nil => simp
  | cons c cs ih => simp [ih, and_assoc]

/-- Bodies are matched if each of them is. -/
theorem matchedBodies_eraseBodies (bs : List (List Command)) :
    Statement.MatchedBodies (eraseBodies bs) ↔ ∀ b ∈ bs, Matched b := by
  induction bs with
  | nil => simp [eraseBodies, Statement.MatchedBodies]
  | cons b bs ih => simp [eraseBodies, Statement.MatchedBodies, ih, Matched]

/-- A choice is matched if it has a body for each guard and all bodies are matched. -/
@[simp] theorem matched_erase_cond (guards : List Predicate) (bodies : List (List Command))
    (r : TextRange) : (Command.cond guards bodies r).erase.Matched ↔
      guards.length ≤ bodies.length ∧ ∀ b ∈ bodies, Matched b := by
  simp only [erase, Statement.Matched, length_eraseBodies, matchedBodies_eraseBodies]

/-- A loop is matched if it has a body for each guard and all bodies are matched. -/
@[simp] theorem matched_erase_loop (i : Nat) (guards : List Predicate)
    (bodies : List (List Command)) (r : TextRange) :
    (Command.loop i guards bodies r).erase.Matched ↔
      guards.length ≤ bodies.length ∧ ∀ b ∈ bodies, Matched b := by
  simp only [erase, Statement.Matched, length_eraseBodies, matchedBodies_eraseBodies]

/-- As many bodies as before are left when their loops are taken out. -/
theorem length_stripBodies (bs : List (List Command)) : (stripBodies bs).length = bs.length := by
  induction bs with
  | nil => simp only [stripBodies]
  | cons b bs ih => simp only [stripBodies, List.length_cons, ih]

mutual

/-- Removing loops leaves a command matched. -/
theorem matched_stripLoop : ∀ c : Command, c.erase.Matched → Matched c.stripLoop
  | .loop .., _ => by simp [stripLoop]
  | .cond guards bodies r, h => by
    rw [matched_erase_cond] at h
    simp only [stripLoop, matched_cons, matched_nil, and_true, matched_erase_cond,
      length_stripBodies]
    exact ⟨h.1, matched_of_mem_stripBodies bodies h.2⟩
  | .abort _, h | .skip _, h | .assign _, h | .snapshot .., h => by
    simpa only [stripLoop, matched_cons, matched_nil, and_true] using h

/-- Removing loops leaves a sequence matched. -/
theorem matched_stripLoops : ∀ cs : List Command, Matched cs → Matched (stripLoops cs)
  | [], _ => by simp [stripLoops]
  | c :: cs, h => by
    rw [matched_cons] at h
    simp only [stripLoops, matched_append]
    exact ⟨matched_stripLoop c h.1, matched_stripLoops cs h.2⟩

/-- Removing loops leaves bodies matched. -/
theorem matched_of_mem_stripBodies : ∀ bs : List (List Command), (∀ b ∈ bs, Matched b) →
    ∀ b ∈ stripBodies bs, Matched b
  | [], _ => by simp [stripBodies]
  | b :: bs, h => by
    rw [List.forall_mem_cons] at h
    simp only [stripBodies, List.forall_mem_cons]
    exact ⟨matched_stripLoops b h.1, matched_of_mem_stripBodies bs h.2⟩

end

/-! ## Loops of a sequence -/

/-- The empty sequence has no loops. -/
@[simp] theorem nestedLoops_nil : nestedLoops [] = [] := by simp only [nestedLoops]

/-- The loops of a sequence are those of its first command and those of the rest. -/
@[simp] theorem nestedLoops_cons (c : Command) (cs : List Command) :
    nestedLoops (c :: cs) = c.nestedLoop ++ nestedLoops cs := by simp only [nestedLoops]

/-- The loops of a sequence are those of its parts. -/
@[simp] theorem nestedLoops_append (cs ds : List Command) :
    nestedLoops (cs ++ ds) = nestedLoops cs ++ nestedLoops ds := by
  induction cs with
  | nil => simp
  | cons c cs ih => simp [ih]

/-- A `skip` in the place of an empty sequence has no loops. -/
@[simp] theorem nestedLoops_orSkip (cs : List Command) (r : TextRange) :
    nestedLoops (orSkip cs r) = nestedLoops cs := by
  unfold orSkip
  split
  · next h => simp [List.isEmpty_iff.mp h, nestedLoop]
  · rfl

/-- The loops of a choice are those of its bodies. -/
@[simp] theorem nestedLoop_cond (guards : List Predicate) (bodies : List (List Command))
    (r : TextRange) : (Command.cond guards bodies r).nestedLoop = bodyLoops bodies := by
  simp only [nestedLoop]

/-- The loops of a loop are the loop itself and those of its bodies. -/
@[simp] theorem nestedLoop_loop (i : Nat) (guards : List Predicate) (bodies : List (List Command))
    (r : TextRange) :
    (Command.loop i guards bodies r).nestedLoop = ⟨i, guards, bodies, r⟩ :: bodyLoops bodies := by
  simp only [nestedLoop]

/-- The loops of bodies are the loops of one of them. -/
theorem mem_bodyLoops {bs : List (List Command)} {l : Loop} :
    l ∈ bodyLoops bs ↔ ∃ b ∈ bs, l ∈ nestedLoops b := by
  induction bs with
  | nil => simp [bodyLoops]
  | cons b bs ih => simp [bodyLoops, ih]

/-- A property of sequences that passes to their parts. -/
structure Hereditary (P : List Command → Prop) : Prop where
  head : ∀ c cs, P (c :: cs) → P [c]
  tail : ∀ c cs, P (c :: cs) → P cs
  cond : ∀ guards bodies r, P [.cond guards bodies r] → ∀ b ∈ bodies, P b
  loop : ∀ i guards bodies r, P [.loop i guards bodies r] → ∀ b ∈ bodies, P b

section Bodies

variable {P : List Command → Prop} {l m : Loop} {b : List Command}

mutual

/-- A hereditary property passes from a command to the bodies of its loops. -/
theorem Hereditary.of_nestedLoop (hP : Hereditary P) (hb : b ∈ l.bodies) :
    ∀ c : Command, l ∈ c.nestedLoop → P [c] → P b
  | .loop i guards bodies r, hl, h => by
    have hbodies := hP.loop i guards bodies r h
    rw [nestedLoop_loop] at hl
    rcases List.mem_cons.mp hl with rfl | hl
    · exact hbodies b hb
    · exact hP.of_bodyLoops hb bodies hl hbodies
  | .cond guards bodies r, hl, h => by
    rw [nestedLoop_cond] at hl
    exact hP.of_bodyLoops hb bodies hl (hP.cond guards bodies r h)
  | .abort _, hl, _ | .skip _, hl, _ | .assign _, hl, _ | .snapshot .., hl, _ => by
    simp [nestedLoop] at hl

/-- A hereditary property passes from a sequence to the bodies of its loops. -/
theorem Hereditary.of_nestedLoops (hP : Hereditary P) (hb : b ∈ l.bodies) :
    ∀ cs : List Command, l ∈ nestedLoops cs → P cs → P b
  | [], hl, _ => by simp at hl
  | c :: cs, hl, h => by
    rw [nestedLoops_cons, List.mem_append] at hl
    rcases hl with hl | hl
    · exact hP.of_nestedLoop hb c hl (hP.head c cs h)
    · exact hP.of_nestedLoops hb cs hl (hP.tail c cs h)

/-- A hereditary property passes from bodies to the bodies of their loops. -/
theorem Hereditary.of_bodyLoops (hP : Hereditary P) (hb : b ∈ l.bodies) :
    ∀ bs : List (List Command), l ∈ bodyLoops bs → (∀ b' ∈ bs, P b') → P b
  | [], hl, _ => by simp [bodyLoops] at hl
  | b' :: bs, hl, h => by
    rw [bodyLoops, List.mem_append] at hl
    rw [List.forall_mem_cons] at h
    rcases hl with hl | hl
    · exact hP.of_nestedLoops hb b' hl h.1
    · exact hP.of_bodyLoops hb bs hl h.2

end

end Bodies

/-! ## Conditions on sequences -/

mutual

/-- No loop is left in a command without its loops. -/
theorem nestedLoops_stripLoop : ∀ c : Command, nestedLoops c.stripLoop = []
  | .loop .. => by rw [stripLoop, nestedLoops_nil]
  | .cond guards bodies r => by
    rw [stripLoop, nestedLoops_cons, nestedLoop_cond, bodyLoops_stripBodies bodies]
    rfl
  | .abort _ | .skip _ | .assign _ | .snapshot .. => by
    simp only [stripLoop, nestedLoops, nestedLoop, List.append_nil]

/-- No loop is left in a sequence without its loops. -/
theorem nestedLoops_stripLoops : ∀ cs : List Command, nestedLoops (stripLoops cs) = []
  | [] => by rw [stripLoops, nestedLoops_nil]
  | c :: cs => by
    rw [stripLoops, nestedLoops_append, nestedLoops_stripLoop c, nestedLoops_stripLoops cs]
    rfl

/-- No loop is left in bodies without their loops. -/
theorem bodyLoops_stripBodies : ∀ bs : List (List Command), bodyLoops (stripBodies bs) = []
  | [] => by rw [stripBodies, bodyLoops]
  | b :: bs => by
    rw [stripBodies, bodyLoops, nestedLoops_stripLoops b, bodyLoops_stripBodies bs]
    rfl

end

/-- A condition on sequences that passes to the sequences of all premises. -/
structure Composable (P : List Command → Prop) : Prop where
  append : ∀ cs ds, P (cs ++ ds) ↔ P cs ∧ P ds
  skip : ∀ r, P [.skip r]
  snapshot : ∀ x t r, P [.snapshot x t r]
  cond : ∀ guards bodies r, P [.cond guards bodies r] → ∀ b ∈ bodies, P b
  loop : ∀ i guards bodies r, P [.loop i guards bodies r] → ∀ b ∈ bodies, P b
  strip : ∀ cs, P cs → P (stripLoops cs)

namespace Composable

variable {P Q : List Command → Prop}

/-- The condition for a sequence is that for its first command and that for the rest. -/
theorem cons (hP : Composable P) (c : Command) (cs : List Command) :
    P (c :: cs) ↔ P [c] ∧ P cs :=
  hP.append [c] cs

/-- A condition that passes to the premises passes to the parts of a sequence. -/
theorem hereditary (hP : Composable P) : Hereditary P where
  head := fun c cs h => ((hP.cons c cs).mp h).1
  tail := fun c cs h => ((hP.cons c cs).mp h).2
  cond := hP.cond
  loop := hP.loop

/-- The condition holds of a `skip` in the place of an empty sequence. -/
theorem orSkip (hP : Composable P) {cs : List Command} (h : P cs) (r : TextRange) :
    P (Command.orSkip cs r) := by
  unfold Command.orSkip
  split
  · exact hP.skip r
  · exact h

/-- The sequence before a choice meets a condition that the whole sequence meets. -/
theorem entry {before cs : List Command} (hP : Composable P) (h : P (before ++ cs))
    (r : TextRange) : P (Command.orSkip before r) :=
  hP.orSkip ((hP.append _ _).mp h).1 r

/-- A branch of a choice, with what stands around the choice, meets a condition that the whole
sequence meets. -/
theorem branch {before after body : List Command} {guards : List Predicate}
    {bodies : List (List Command)} {r : TextRange} (hP : Composable P)
    (h : P (before ++ .cond guards bodies r :: after)) (hbody : body ∈ bodies) :
    P (Command.orSkip before r ++ body ++ Command.orSkip after r) := by
  rw [hP.append, hP.cons] at h
  obtain ⟨hbefore, hcond, hafter⟩ := h
  rw [hP.append, hP.append]
  exact ⟨⟨hP.orSkip hbefore r, hP.cond _ _ _ hcond body hbody⟩, hP.orSkip hafter r⟩

/-- Two conditions that pass to the premises do so together. -/
theorem and (hP : Composable P) (hQ : Composable Q) : Composable fun cs => P cs ∧ Q cs where
  append := fun cs ds => by
    rw [hP.append, hQ.append]
    exact and_and_and_comm
  skip := fun r => ⟨hP.skip r, hQ.skip r⟩
  snapshot := fun x t r => ⟨hP.snapshot x t r, hQ.snapshot x t r⟩
  cond := fun guards bodies r h b hb =>
    ⟨hP.cond guards bodies r h.1 b hb, hQ.cond guards bodies r h.2 b hb⟩
  loop := fun i guards bodies r h b hb =>
    ⟨hP.loop i guards bodies r h.1 b hb, hQ.loop i guards bodies r h.2 b hb⟩
  strip := fun cs h => ⟨hP.strip cs h.1, hQ.strip cs h.2⟩

end Composable

/-- Having a body for each guard passes to all premises. -/
theorem composable_matched : Composable Matched where
  append := matched_append
  skip := fun r => by simp [erase, Statement.Matched]
  snapshot := fun x t r => by simp [erase, Statement.Matched]
  cond := fun guards bodies r h => by
    rw [matched_cons, matched_erase_cond] at h
    exact h.1.2
  loop := fun i guards bodies r h => by
    rw [matched_cons, matched_erase_loop] at h
    exact h.1.2
  strip := matched_stripLoops

/-- The commands of a matched program are matched. -/
theorem matched_numberSeq {program : Program} (h : program.Matched) (n : Nat) :
    Matched (Statement.numberSeq n program.statements) := by
  rw [Matched, Statement.eraseSeq_numberSeq]
  exact h

/-- The guards of a matched choice have bodies. -/
theorem Matched.length_cond {before after : List Command} {guards : List Predicate}
    {bodies : List (List Command)} {r : TextRange}
    (h : Matched (before ++ .cond guards bodies r :: after)) : guards.length ≤ bodies.length := by
  rw [matched_append, matched_cons, matched_erase_cond] at h
  exact h.2.1.1

/-- The guards of a matched loop have bodies. -/
theorem Matched.length_loop {before after : List Command} {i : Nat} {guards : List Predicate}
    {bodies : List (List Command)} {r : TextRange}
    (h : Matched (before ++ .loop i guards bodies r :: after)) :
    guards.length ≤ bodies.length := by
  rw [matched_append, matched_cons, matched_erase_loop] at h
  exact h.2.1.1

/-- What is true of all loops of a sequence is true of all loops of the premises. -/
theorem composable_forall_nestedLoops (p : Loop → Prop) :
    Composable fun cs => ∀ l ∈ nestedLoops cs, p l where
  append := fun cs ds => by rw [nestedLoops_append, List.forall_mem_append]
  skip := fun r => by simp [nestedLoop]
  snapshot := fun x t r => by simp [nestedLoop]
  cond := fun guards bodies r h b hb l hl => by
    rw [nestedLoops_cons, nestedLoop_cond, List.forall_mem_append] at h
    exact h.1 l (mem_bodyLoops.mpr ⟨b, hb, hl⟩)
  loop := fun i guards bodies r h b hb l hl => by
    rw [nestedLoops_cons, nestedLoop_loop, List.forall_mem_append] at h
    exact h.1 l (List.mem_cons_of_mem _ (mem_bodyLoops.mpr ⟨b, hb, hl⟩))
  strip := fun cs _ l hl => by
    rw [nestedLoops_stripLoops] at hl
    cases hl

/-- A loop inside a loop of a sequence is a loop of the sequence. -/
theorem mem_nestedLoops_of_mem_body {cs : List Command} {l m : Loop} {b : List Command}
    (hl : l ∈ nestedLoops cs) (hb : b ∈ l.bodies) (hm : m ∈ nestedLoops b) :
    m ∈ nestedLoops cs := by
  have hparts := (composable_forall_nestedLoops (· ∈ nestedLoops cs)).hereditary
  exact hparts.of_nestedLoops hb cs hl (fun _ h => h) m hm

/-- If bodies have no loops, none of them has. -/
theorem nestedLoops_eq_nil_of_mem {bs : List (List Command)} {b : List Command}
    (h : bodyLoops bs = []) (hb : b ∈ bs) : nestedLoops b = [] := by
  refine List.eq_nil_iff_forall_not_mem.mpr fun l hl => ?_
  have hmem := mem_bodyLoops.mpr ⟨b, hb, hl⟩
  rw [h] at hmem
  cases hmem

/-! ## Elementary commands -/

/-- The command is neither a choice nor a loop. -/
def IsElementary : Command → Prop
  | .cond .. | .loop .. => False
  | .abort _ | .skip _ | .assign _ | .snapshot .. => True

variable {I : Interpretation} {d : Demand} {R : State → Prop} {cs : List Command} {s : State}

/-- Recording a bound changes the value of the name it is recorded under. -/
theorem run_snapshot (x : String) (t : IntExpr) (r : TextRange) (s : State) :
    Assign.run I ⟨[.name x], [.int t], r⟩ s = some (Function.update s x (t.value I s)) := by
  simp [Assign.run, writeAll, Variable.place, Value.setPath, Expr.value]

/-- A sequence of commands ensures `R` if its first command ensures that the others do. -/
theorem ensures_eraseSeq_cons {c : Command} :
    Ensures I d R (.running (eraseSeq (c :: cs)) s) ↔
      Ensures I d (fun s' => Ensures I d R (.running (eraseSeq cs) s')) (.running [c.erase] s) := by
  rw [← ensures_append]
  simp

/-- An elementary command leads to a single state or fails, whatever is demanded of it. -/
theorem exists_of_isElementary_single {c : Command} (hc : c.IsElementary) (s : State) :
    (∃ s', ∀ d R, Ensures I d R (.running [c.erase] s) ↔ R s') ∨
      ∀ d R, ¬ Ensures I d R (.running [c.erase] s) := by
  have hassign : ∀ a : Assign, (∃ s', ∀ d R, Ensures I d R (.running [.assign a] s) ↔ R s') ∨
      ∀ d R, ¬ Ensures I d R (.running [.assign a] s) := by
    intro a
    cases hrun : a.run I s with
    | none => exact .inr fun d R => by simp [ensures_assign, hrun]
    | some s' => exact .inl ⟨s', fun d R => by simp [ensures_assign, hrun]⟩
  cases c with
  | abort r => exact .inr fun d R => not_ensures_abort
  | skip r => exact .inl ⟨s, fun d R => by simp [erase]⟩
  | assign a => simpa only [erase] using hassign a
  | snapshot x t r => simpa only [erase] using hassign _
  | cond | loop => exact hc.elim

/-- Elementary commands lead to a single state or fail, whatever is demanded of them. -/
theorem exists_of_isElementary (hcs : ∀ c ∈ cs, c.IsElementary) (s : State) :
    (∃ s', ∀ d R, Ensures I d R (.running (eraseSeq cs) s) ↔ R s') ∨
      ∀ d R, ¬ Ensures I d R (.running (eraseSeq cs) s) := by
  induction cs generalizing s with
  | nil => exact .inl ⟨s, fun d R => by simp⟩
  | cons c cs ih =>
    simp only [ensures_eraseSeq_cons]
    have hc := exists_of_isElementary_single (I := I) (hcs c List.mem_cons_self) s
    rcases hc with ⟨s', hs'⟩ | hnone
    · simp only [hs']
      exact ih (fun c' hc' => hcs c' (List.mem_cons_of_mem c hc')) s'
    · exact .inr fun d R => hnone d _

/-! ## Weakest preconditions -/

/-- The weakest precondition of an elementary command is exact. -/
theorem holds_wp {c : Command} {post pre : Predicate} (h : c.wp post = .ok pre) :
    pre.Holds I s ↔ Ensures I d (post.Holds I) (.running [c.erase] s) := by
  cases c with
  | abort r =>
    cases h
    simp [erase, not_ensures_abort, Predicate.Holds]
  | skip r =>
    cases h
    simp [erase]
  | assign a =>
    obtain ⟨s', hrun, hiff⟩ := Assign.holds_wp (I := I) h s
    simp [erase, ensures_assign, hrun, hiff]
  | snapshot x t r =>
    have hsubst := Predicate.holds_subst (I := I) (eq_ok_of_mapError_eq_ok h) s
    -- To record a value is to write it, as a single replacement does.
    have happly : (Substitution.single x (.int t)).apply I s =
        Function.update s x (t.value I s) := by
      funext y
      by_cases hy : y = x
      · subst hy
        simp [Substitution.apply, Substitution.single, Substitution.lookup, Expr.value]
      · have hbeq : (y == x) = false := by simpa using hy
        simp [Substitution.apply, Substitution.single, Substitution.lookup, List.lookup_cons,
          hbeq, hy]
    rw [hsubst, happly]
    simp [erase, ensures_assign, run_snapshot]
  | cond | loop => cases h

/-- The weakest precondition of a sequence of elementary commands is exact. -/
theorem holds_wpSeq {post pre : Predicate} (h : wpSeq post cs = .ok pre) :
    pre.Holds I s ↔ Ensures I d (post.Holds I) (.running (eraseSeq cs) s) := by
  induction cs generalizing pre s with
  | nil =>
    cases h
    simp
  | cons c cs ih =>
    obtain ⟨between, hbetween, hpre⟩ := exists_of_bind_eq_ok h
    have hpost : between.Holds I =
        fun s' => Ensures I d (post.Holds I) (.running (eraseSeq cs) s') :=
      funext fun s' => propext (ih hbetween)
    rw [holds_wp (d := d) hpre, ensures_eraseSeq_cons, hpost]

/-- Only elementary commands have a weakest precondition. -/
theorem isElementary_of_wpSeq {post pre : Predicate} (h : wpSeq post cs = .ok pre) :
    ∀ c ∈ cs, c.IsElementary := by
  induction cs generalizing pre with
  | nil => exact List.forall_mem_nil _
  | cons c cs ih =>
    obtain ⟨between, hbetween, hpre⟩ := exists_of_bind_eq_ok h
    refine List.forall_mem_cons.mpr ⟨?_, ih hbetween⟩
    cases c with
    | cond | loop => cases hpre
    | abort | skip | assign | snapshot => trivial

/-- The command that does nothing stands for an empty sequence. -/
@[simp] theorem ensures_eraseSeq_orSkip (r : TextRange) :
    Ensures I d R (.running (eraseSeq (orSkip cs r)) s) ↔
      Ensures I d R (.running (eraseSeq cs) s) := by
  unfold orSkip
  split
  · next h => simp [List.isEmpty_iff.mp h, erase]
  · rfl

/-! ## The rule for a sequence -/

/-- Where no last loop is found, there is no loop. -/
theorem not_loop_of_splitLastLoop_none (h : splitLastLoop cs = none) :
    ∀ c ∈ cs, ∀ i guards bodies r, c ≠ .loop i guards bodies r := by
  induction cs with
  | nil => simp
  | cons c cs ih =>
    unfold splitLastLoop at h
    split at h
    · cases h
    · next hnone =>
      split at h
      · cases h
      · next hc =>
        intro c' hc' i guards bodies r heq
        rcases List.mem_cons.mp hc' with rfl | hc'
        · exact hc i guards bodies r heq
        · exact ih hnone c' hc' i guards bodies r heq

/-- In front of the first choice there is no choice. -/
theorem not_cond_of_splitFirstChoice {before after : List Command} {g : Choice}
    (h : splitFirstChoice cs = some (before, g, after)) :
    ∀ c ∈ before, ∀ guards bodies r, c ≠ .cond guards bodies r := by
  induction cs generalizing before with
  | nil => simp [splitFirstChoice] at h
  | cons c cs ih =>
    unfold splitFirstChoice at h
    split at h
    · cases h
    · obtain ⟨rfl, -, -⟩ := by simpa using h
      simp
    · next hc heq =>
      obtain ⟨rfl, rfl⟩ := by simpa using heq
      obtain ⟨⟨b, m, a⟩, hs, he⟩ := Option.map_eq_some_iff.mp h
      obtain ⟨rfl, rfl, rfl⟩ : c :: b = before ∧ m = g ∧ a = after := by simpa using he
      intro c' hc' guards bodies r hcond
      rcases List.mem_cons.mp hc' with rfl | hc'
      · exact hc guards bodies r hcond
      · exact ih hs c' hc' guards bodies r hcond

/-- Where no first choice is found, there is no choice. -/
theorem not_cond_of_splitFirstChoice_none (h : splitFirstChoice cs = none) :
    ∀ c ∈ cs, ∀ guards bodies r, c ≠ .cond guards bodies r := by
  induction cs with
  | nil => simp
  | cons c cs ih =>
    unfold splitFirstChoice at h
    split at h
    · simp_all
    · cases h
    · next hc heq =>
      obtain ⟨rfl, rfl⟩ := by simpa using heq
      intro c' hc' guards bodies r hcond
      rcases List.mem_cons.mp hc' with rfl | hc'
      · exact hc guards bodies r hcond
      · exact ih (by simpa using h) c' hc' guards bodies r hcond

/-- What is neither a loop nor a choice is elementary. -/
theorem isElementary_of_ne {c : Command}
    (hloop : ∀ i guards bodies r, c ≠ .loop i guards bodies r)
    (hcond : ∀ guards bodies r, c ≠ .cond guards bodies r) : c.IsElementary := by
  cases c with
  | cond guards bodies r => exact hcond guards bodies r rfl
  | loop i guards bodies r => exact hloop i guards bodies r rfl
  | abort | skip | assign | snapshot => trivial

end Command

/-- What each rule applies to. A loop goes first; without loops, what stands before the first choice
is elementary. -/
inductive Rule.Applies : List Command → Rule → Prop where
  | empty : Rule.Applies [] .empty
  | elementary {cs} (h : ∀ c ∈ cs, c.IsElementary) : Rule.Applies cs .elementary
  | choice {before g after} (h : ∀ c ∈ before, c.IsElementary) :
    Rule.Applies (before ++ .cond g.guards g.bodies g.range :: after) (.choice before g after)
  | loop {before l after} :
    Rule.Applies (before ++ .loop l.index l.guards l.bodies l.range :: after) (.loop before l after)

/-- The rule for a sequence applies to it. -/
theorem Rule.applies_of (cs : List Command) : Rule.Applies cs (Rule.of cs) := by
  unfold Rule.of
  split
  · next h =>
    rw [List.isEmpty_iff.mp h]
    exact .empty
  · split
    · next hs =>
      rw [Command.eq_of_splitLastLoop hs]
      exact .loop
    · next hloop =>
      have hloop := Command.not_loop_of_splitLastLoop_none hloop
      split
      · next hs =>
        have hcond := Command.not_cond_of_splitFirstChoice hs
        rw [Command.eq_of_splitFirstChoice hs] at hloop ⊢
        exact .choice fun c hc =>
          Command.isElementary_of_ne (hloop c (List.mem_append_left _ hc)) (hcond c hc)
      · next hs =>
        exact .elementary fun c hc => Command.isElementary_of_ne (hloop c hc)
          (Command.not_cond_of_splitFirstChoice_none hs c hc)

end GuardedCommand
