import GuardedCommand.Proofs.Exactness
import GuardedCommand.Proofs.NestedLoops

/-! # Loops in the order of the text, and which of them are visited

Loops are numbered in the order of the text. Proof rules treat the last loop of a sequence first,
enter choices branch by branch, and copy what follows a choice into each of its branches. They come
to every loop that stands in a sequence itself. The branches of a choice they enter only if they get
past all choices before it, back to the last loop: where a choice has no branches, what follows it
up to the next loop of the sequence is not looked at.

* `Program.loop?`: the loops of a program by their number; `Program.LiesInside`: a loop lies inside
  another one. `Program.loop?_index`, `Program.liesInside_of_mem_bodyLoops`: numbered loops are
  where their numbers say.
* `Command.visited`, `Program.visitedLoops`: the numbers of the loops that the rules come to.
* `Program.Paired`: guards and bodies belong together; `Program.mem_visitedLoops`: all loops are
  visited if, besides, no choice is without branches.
-/

namespace GuardedCommand

/-! ## Loops in the order of the text -/

namespace Statement

mutual

/-- The loops of a statement, itself included, in the order of the text. -/
def loopList : Statement → List Statement
  | .abort _ | .skip _ | .assign _ => []
  | .cond _ bodies _ => loopListBodies bodies
  | .loop guards bodies r => .loop guards bodies r :: loopListBodies bodies

/-- The loops of a sequence of statements, in the order of the text. -/
def loopListSeq : List Statement → List Statement
  | [] => []
  | a :: ss => a.loopList ++ loopListSeq ss

/-- The loops of bodies, in the order of the text. -/
def loopListBodies : List (List Statement) → List Statement
  | [] => []
  | b :: bs => loopListSeq b ++ loopListBodies bs

end

mutual

/-- The loops of a statement are as many as are counted. -/
theorem length_loopList : ∀ a : Statement, a.loopList.length = a.loops
  | .abort _ | .skip _ | .assign _ => by simp only [loopList, loops, List.length_nil]
  | .cond guards bodies r => by
    rw [loopList, loops, length_loopListBodies bodies]
  | .loop guards bodies r => by
    rw [loopList, loops, List.length_cons, length_loopListBodies bodies]

/-- The loops of a sequence are as many as are counted. -/
theorem length_loopListSeq : ∀ ss : List Statement, (loopListSeq ss).length = countLoops ss
  | [] => by rw [loopListSeq, countLoops, List.length_nil]
  | a :: ss => by
    rw [loopListSeq, countLoops, List.length_append, length_loopList a, length_loopListSeq ss]

/-- The loops of bodies are as many as are counted. -/
theorem length_loopListBodies : ∀ bs : List (List Statement),
    (loopListBodies bs).length = bodyLoops bs
  | [] => by rw [loopListBodies, bodyLoops, List.length_nil]
  | b :: bs => by
    rw [loopListBodies, bodyLoops, List.length_append, length_loopListSeq b,
      length_loopListBodies bs]

end

end Statement

/-- A loop as a command. -/
def Loop.command (l : Loop) : Command :=
  .loop l.index l.guards l.bodies l.range

mutual

/-- The loops of a numbered statement are its loops in the order of the text, each numbered after
those before it. -/
theorem Statement.map_command_nestedLoop : ∀ (n : Nat) (a : Statement),
    (a.number n).nestedLoop.map Loop.command = (a.loopList.zipIdx n).map fun (s, i) => s.number i
  | _, .abort _ | _, .skip _ | _, .assign _ => by
    simp only [Statement.number, Command.nestedLoop, Statement.loopList, List.zipIdx_nil,
      List.map_nil]
  | n, .cond guards bodies r => by
    rw [Statement.number, Command.nestedLoop_cond, Statement.loopList,
      Statement.map_command_bodyLoops n bodies]
  | n, .loop guards bodies r => by
    -- the loop has the next number, and the loops of its bodies follow it
    rw [Statement.number, Command.nestedLoop_loop, Statement.loopList, List.map_cons,
      List.zipIdx_cons, List.map_cons, Statement.map_command_bodyLoops (n + 1) bodies]
    simp only [Statement.number, Loop.command]

/-- The loops of a numbered sequence are its loops, numbered in order. -/
theorem Statement.map_command_nestedLoops : ∀ (n : Nat) (ss : List Statement),
    (Command.nestedLoops (Statement.numberSeq n ss)).map Loop.command =
      ((Statement.loopListSeq ss).zipIdx n).map fun (s, i) => s.number i
  | _, [] => by
    rw [Statement.numberSeq, Statement.loopListSeq]
    rfl
  | n, a :: ss => by
    rw [Statement.numberSeq, Command.nestedLoops_cons, Statement.loopListSeq, List.map_append,
      List.zipIdx_append, List.map_append, Statement.map_command_nestedLoop n a,
      Statement.length_loopList, Statement.map_command_nestedLoops (n + a.loops) ss]

/-- The loops of numbered bodies are their loops, numbered in order. -/
theorem Statement.map_command_bodyLoops : ∀ (n : Nat) (bs : List (List Statement)),
    (Command.bodyLoops (Statement.numberBodies n bs)).map Loop.command =
      ((Statement.loopListBodies bs).zipIdx n).map fun (s, i) => s.number i
  | _, [] => by
    rw [Statement.numberBodies, Statement.loopListBodies, Command.bodyLoops]
    rfl
  | n, b :: bs => by
    rw [Statement.numberBodies, Command.bodyLoops, Statement.loopListBodies, List.map_append,
      List.zipIdx_append, List.map_append, Statement.map_command_nestedLoops n b,
      Statement.length_loopListSeq,
      Statement.map_command_bodyLoops (n + Statement.countLoops b) bs]

end

/-- Only a loop is numbered as a loop. -/
theorem Statement.eq_of_number_eq_command {a : Statement} {n : Nat} {l : Loop}
    (h : a.number n = l.command) :
    l.index = n + 1 ∧ a = l.statement ∧
      l.bodies = Statement.numberBodies l.index (Command.eraseBodies l.bodies) := by
  obtain ⟨index, guards, bodies, range⟩ := l
  cases a with
  | abort | skip | assign | cond =>
    rw [Statement.number] at h
    cases h
  | loop guards' bodies' range' =>
    rw [Statement.number] at h
    cases h
    simp only [Loop.statement, Statement.eraseBodies_numberBodies, and_self]

/-- The loop at a place of a list of numbered loops is the statement at this place, numbered. -/
theorem Statement.getElem?_of_map_command {loops : List Loop} {ss : List Statement} {n i : Nat}
    {l : Loop} (h : loops.map Loop.command = (ss.zipIdx n).map fun (s, i) => s.number i)
    (hl : loops[i]? = some l) :
    l.index = n + i + 1 ∧ ss[i]? = some l.statement ∧
      l.bodies = Statement.numberBodies l.index (Command.eraseBodies l.bodies) := by
  -- both lists are compared at the place of the loop
  have hat : (loops.map Loop.command)[i]? = some l.command := by
    rw [List.getElem?_map, hl, Option.map_some]
  rw [h, List.getElem?_map, List.getElem?_zipIdx, Option.map_map, Option.map_eq_some_iff] at hat
  obtain ⟨a, ha, hnumber⟩ := hat
  obtain ⟨hindex, rfl, hbodies⟩ := Statement.eq_of_number_eq_command hnumber
  exact ⟨hindex, ha, hbodies⟩

namespace Program

/-- The loop with the given number in the order of the text, counted from `1`. -/
def loop? (p : Program) : Nat → Option Statement
  | 0 => none
  | k + 1 => (Statement.loopListSeq p.statements)[k]?

/-- The loop with number `m` lies inside the one with number `k`: it is one of the loops of its
bodies, whose numbers follow `k`. -/
def LiesInside (p : Program) (m k : Nat) : Prop :=
  ∃ guards bodies r j inner, p.loop? k = some (.loop guards bodies r) ∧
    (Statement.loopListBodies bodies)[j]? = some inner ∧ m = k + j + 1 ∧ p.loop? m = some inner

/-- The loops of a program, numbered. -/
def numberedLoops (p : Program) : List Loop :=
  Command.nestedLoops (Statement.numberSeq 0 p.statements)

variable {p : Program} {l m : Loop}

/-- The number of a loop is its place in the order of the text. -/
theorem loop?_index (h : l ∈ p.numberedLoops) :
    p.loop? l.index = some l.statement ∧
      l.bodies = Statement.numberBodies l.index (Command.eraseBodies l.bodies) := by
  obtain ⟨i, hi⟩ := List.mem_iff_getElem?.mp h
  obtain ⟨hindex, hat, hbodies⟩ :=
    Statement.getElem?_of_map_command (Statement.map_command_nestedLoops 0 p.statements) hi
  refine ⟨?_, hbodies⟩
  rw [hindex, Nat.zero_add]
  exact hat

/-- Loops with the same number are the same. -/
theorem eq_of_index_eq (hl : l ∈ p.numberedLoops) (hm : m ∈ p.numberedLoops)
    (h : l.index = m.index) : l = m := by
  obtain ⟨hloop, hbodies⟩ := loop?_index hl
  obtain ⟨hloop', hbodies'⟩ := loop?_index hm
  rw [h, hloop'] at hloop
  rw [h] at hbodies
  -- the bodies are those of the statement, numbered after the loop
  have hstatement := Option.some.inj hloop
  simp only [Loop.statement, Statement.loop.injEq] at hstatement
  obtain ⟨hguards, herased, hrange⟩ := hstatement
  rw [← herased, ← hbodies'] at hbodies
  cases l
  cases m
  simp only [Loop.mk.injEq]
  exact ⟨h, hguards.symm, hbodies, hrange.symm⟩

/-- A loop in the bodies of another one lies inside it. -/
theorem liesInside_of_mem_bodyLoops (hl : l ∈ p.numberedLoops)
    (hm : m ∈ Command.bodyLoops l.bodies) : p.LiesInside m.index l.index := by
  obtain ⟨hloop, hbodies⟩ := loop?_index hl
  -- the inner loop has a place in the program and one in the bodies
  obtain ⟨b, hb, hmb⟩ := Command.mem_bodyLoops.mp hm
  have hmem : m ∈ p.numberedLoops := Command.mem_nestedLoops_of_mem_body hl hb hmb
  rw [hbodies] at hm
  obtain ⟨j, hj⟩ := List.mem_iff_getElem?.mp hm
  obtain ⟨hindex, hat, -⟩ :=
    Statement.getElem?_of_map_command (Statement.map_command_bodyLoops l.index _) hj
  exact ⟨_, _, _, j, m.statement, hloop, hat, hindex, (loop?_index hmem).1⟩

/-- Every number up to the number of loops belongs to a loop. -/
theorem exists_mem_numberedLoops {k : Nat} (hpos : 1 ≤ k) (hle : k ≤ p.countLoops) :
    ∃ l ∈ p.numberedLoops, l.index = k := by
  have hlength : k - 1 < p.numberedLoops.length := by
    rw [numberedLoops, Statement.length_nestedLoops_numberSeq]
    have : p.countLoops = Statement.countLoops p.statements := rfl
    omega
  have hat := List.getElem?_eq_getElem hlength
  obtain ⟨hindex, -⟩ :=
    Statement.getElem?_of_map_command (Statement.map_command_nestedLoops 0 p.statements) hat
  exact ⟨_, List.getElem_mem hlength, by omega⟩

end Program

/-! ## Visited loops -/

namespace Command

mutual

/-- The rules go on to what follows a command, if they came to it. They always go on after a loop;
after a choice, only if they get to the end of one of its branches. -/
def passes (live : Bool) : Command → Bool
  | .abort _ | .skip _ | .assign _ | .snapshot .. => live
  | .cond guards bodies _ => live && passesBranches guards bodies
  | .loop .. => true

/-- The rules go on to what follows a sequence, if they came to it. -/
def passesSeq (live : Bool) : List Command → Bool
  | [] => live
  | c :: cs => passesSeq (c.passes live) cs

/-- The rules get to the end of a branch. -/
def passesBranches : List Predicate → List (List Command) → Bool
  | [], _ => false
  | _ :: _, [] => false
  | _ :: guards, b :: bs => passesSeq true b || passesBranches guards bs

end

mutual

/-- The numbers of the loops in a command that the rules come to. Loops of the command itself are
always found; its branches are looked at if the command is `live`. -/
def visited (live : Bool) : Command → List Nat
  | .abort _ | .skip _ | .assign _ | .snapshot .. => []
  | .cond guards bodies _ => if live then visitedBranches guards bodies else []
  | .loop i guards bodies _ => i :: visitedBranches guards bodies

/-- The numbers of the loops in a sequence that the rules come to. -/
def visitedSeq (live : Bool) : List Command → List Nat
  | [] => []
  | c :: cs => c.visited live ++ visitedSeq (c.passes live) cs

/-- The numbers of the loops in branches that the rules come to. -/
def visitedBranches : List Predicate → List (List Command) → List Nat
  | [], _ => []
  | _ :: _, [] => []
  | _ :: guards, b :: bs => visitedSeq true b ++ visitedBranches guards bs

end

variable {cs ds before after : List Command} {guards : List Predicate}
  {bodies : List (List Command)} {live : Bool} {k : Nat}

/-- A sequence is passed if its first part is and then its second. -/
theorem passesSeq_append : passesSeq live (cs ++ ds) = passesSeq (passesSeq live cs) ds := by
  induction cs generalizing live with
  | nil => rw [List.nil_append, passesSeq]
  | cons c cs ih => rw [List.cons_append, passesSeq, passesSeq, ih]

/-- The second part of a sequence is visited if the first is passed. -/
theorem visitedSeq_append :
    visitedSeq live (cs ++ ds) = visitedSeq live cs ++ visitedSeq (passesSeq live cs) ds := by
  induction cs generalizing live with
  | nil => rw [List.nil_append, passesSeq, visitedSeq, List.nil_append]
  | cons c cs ih => rw [List.cons_append, passesSeq, visitedSeq, visitedSeq, ih, List.append_assoc]

/-- Elementary commands are passed. -/
theorem passesSeq_of_isElementary (h : ∀ c ∈ cs, c.IsElementary) : passesSeq live cs = live := by
  induction cs with
  | nil => rw [passesSeq]
  | cons c cs ih =>
    rw [List.forall_mem_cons] at h
    have hc : c.passes live = live := by
      cases c with
      | cond | loop => exact h.1.elim
      | abort | skip | assign | snapshot => rw [passes]
    rw [passesSeq, hc, ih h.2]

/-- Nothing is visited in elementary commands. -/
theorem visitedSeq_eq_nil_of_isElementary (h : ∀ c ∈ cs, c.IsElementary) :
    visitedSeq live cs = [] := by
  induction cs generalizing live with
  | nil => rw [visitedSeq]
  | cons c cs ih =>
    rw [List.forall_mem_cons] at h
    have hc : c.visited live = [] := by
      cases c with
      | cond | loop => exact h.1.elim
      | abort | skip | assign | snapshot => rw [visited]
    rw [visitedSeq, hc, ih h.2, List.nil_append]

/-- A `skip` in the place of nothing is passed as nothing is. -/
theorem passesSeq_orSkip (r : TextRange) : passesSeq live (orSkip cs r) = passesSeq live cs := by
  unfold orSkip
  split
  · next h =>
    rw [List.isEmpty_iff.mp h]
    simp only [passesSeq, passes]
  · rfl

/-- A `skip` in the place of nothing visits no loops. -/
theorem visitedSeq_orSkip (r : TextRange) : visitedSeq live (orSkip cs r) = visitedSeq live cs := by
  unfold orSkip
  split
  · next h =>
    rw [List.isEmpty_iff.mp h]
    simp only [visitedSeq, visited, List.append_nil]
  · rfl

/-- Branches are passed if one of their bodies is. -/
theorem passesBranches_iff :
    passesBranches guards bodies = true ↔
      ∃ branch ∈ guards.zip bodies, passesSeq true branch.2 = true := by
  induction guards generalizing bodies with
  | nil => simp [passesBranches]
  | cons g guards ih =>
    cases bodies with
    | nil => simp [passesBranches]
    | cons b bodies =>
      rw [passesBranches, Bool.or_eq_true, ih, List.zip_cons_cons, List.exists_mem_cons_iff]

/-- The visited loops of branches are those of their bodies. -/
theorem mem_visitedBranches :
    k ∈ visitedBranches guards bodies ↔
      ∃ branch ∈ guards.zip bodies, k ∈ visitedSeq true branch.2 := by
  induction guards generalizing bodies with
  | nil => simp [visitedBranches]
  | cons g guards ih =>
    cases bodies with
    | nil => simp [visitedBranches]
    | cons b bodies =>
      rw [visitedBranches, List.mem_append, ih, List.zip_cons_cons, List.exists_mem_cons_iff]

mutual

/-- Only loops of a command are visited in it. -/
theorem exists_of_mem_visited : ∀ (c : Command) (live : Bool), k ∈ c.visited live →
    ∃ l ∈ c.nestedLoop, l.index = k
  | .abort _, _, h | .skip _, _, h | .assign _, _, h | .snapshot .., _, h => by
    rw [visited] at h
    cases h
  | .cond guards bodies r, live, h => by
    rw [visited] at h
    rw [nestedLoop_cond]
    cases live with
    | false => cases h
    | true => exact exists_of_mem_visitedBranches guards bodies h
  | .loop i guards bodies r, _, h => by
    rw [visited, List.mem_cons] at h
    rw [nestedLoop_loop, List.exists_mem_cons_iff]
    rcases h with rfl | h
    · exact .inl rfl
    · exact .inr (exists_of_mem_visitedBranches guards bodies h)

/-- Only loops of a sequence are visited in it. -/
theorem exists_of_mem_visitedSeq : ∀ (cs : List Command) (live : Bool), k ∈ visitedSeq live cs →
    ∃ l ∈ nestedLoops cs, l.index = k
  | [], _, h => by
    rw [visitedSeq] at h
    cases h
  | c :: cs, live, h => by
    rw [visitedSeq, List.mem_append] at h
    rw [nestedLoops_cons]
    rcases h with h | h
    · obtain ⟨l, hl, hk⟩ := exists_of_mem_visited c live h
      exact ⟨l, List.mem_append_left _ hl, hk⟩
    · obtain ⟨l, hl, hk⟩ := exists_of_mem_visitedSeq cs _ h
      exact ⟨l, List.mem_append_right _ hl, hk⟩

/-- Only loops of bodies are visited in branches. -/
theorem exists_of_mem_visitedBranches : ∀ (guards : List Predicate) (bs : List (List Command)),
    k ∈ visitedBranches guards bs → ∃ l ∈ bodyLoops bs, l.index = k
  | [], _, h => by
    rw [visitedBranches] at h
    cases h
  | _ :: _, [], h => by
    rw [visitedBranches] at h
    cases h
  | _ :: guards, b :: bs, h => by
    rw [visitedBranches, List.mem_append] at h
    rw [bodyLoops]
    rcases h with h | h
    · obtain ⟨l, hl, hk⟩ := exists_of_mem_visitedSeq b true h
      exact ⟨l, List.mem_append_left _ hl, hk⟩
    · obtain ⟨l, hl, hk⟩ := exists_of_mem_visitedBranches guards bs h
      exact ⟨l, List.mem_append_right _ hl, hk⟩

end

/-- Behind a choice without an end nothing is visited before the next loop. -/
theorem visitedSeq_false_eq_nil (h : ∀ c ∈ cs, ∀ i guards bodies r, c ≠ .loop i guards bodies r) :
    visitedSeq false cs = [] := by
  induction cs with
  | nil => rw [visitedSeq]
  | cons c cs ih =>
    rw [List.forall_mem_cons] at h
    have hc : c.visited false = [] ∧ c.passes false = false := by
      cases c with
      | loop i guards bodies r => exact absurd rfl (h.1 i guards bodies r)
      | cond guards bodies r =>
        -- a choice that the rules do not come to is not entered and not passed
        simp only [visited, passes, Bool.false_and, Bool.false_eq_true, if_false, and_self]
      | abort | skip | assign | snapshot => simp only [visited, passes, and_self]
    rw [visitedSeq, hc.1, hc.2, ih h.2, List.nil_append]

end Command

/-! ## Programs all of whose loops are visited -/

mutual

/-- Every choice and every loop has as many guards as bodies, and every choice has at least `least`
of them. -/
def Statement.Paired (least : Nat) : Statement → Prop
  | .abort _ | .skip _ | .assign _ => True
  | .cond guards bodies _ =>
    guards.length = bodies.length ∧ least ≤ guards.length ∧ Statement.PairedBodies least bodies
  | .loop guards bodies _ =>
    guards.length = bodies.length ∧ Statement.PairedBodies least bodies

/-- Every statement of a sequence is paired. -/
def Statement.PairedSeq (least : Nat) : List Statement → Prop
  | [] => True
  | a :: ss => a.Paired least ∧ Statement.PairedSeq least ss

/-- Every body is paired. -/
def Statement.PairedBodies (least : Nat) : List (List Statement) → Prop
  | [] => True
  | b :: bs => Statement.PairedSeq least b ∧ Statement.PairedBodies least bs

end

mutual

/-- A numbered statement is passed and all its loops are visited, if no choice is without
branches. -/
theorem Statement.visited_number : ∀ (n : Nat) (a : Statement), a.Paired 1 →
    (a.number n).passes true = true ∧
      (a.number n).visited true = (a.number n).nestedLoop.map Loop.index
  | _, .abort _, _ | _, .skip _, _ | _, .assign _, _ => by
    simp only [Statement.number, Command.passes, Command.visited, Command.nestedLoop,
      List.map_nil, and_self]
  | n, .cond guards bodies r, h => by
    -- a branch can be passed as there is one
    rw [Statement.Paired] at h
    obtain ⟨hpasses, hvisited⟩ := Statement.visitedBranches_numberBodies n guards bodies h.1 h.2.2
    rw [Statement.number, Command.passes, Command.visited, Command.nestedLoop_cond, if_pos rfl,
      hpasses h.2.1, hvisited]
    exact ⟨rfl, rfl⟩
  | n, .loop guards bodies r, h => by
    rw [Statement.Paired] at h
    obtain ⟨-, hvisited⟩ := Statement.visitedBranches_numberBodies (n + 1) guards bodies h.1 h.2
    rw [Statement.number, Command.passes, Command.visited, Command.nestedLoop_loop, hvisited]
    exact ⟨rfl, rfl⟩

/-- A sequence in which every guard has its body is passed, and all its loops are visited. -/
theorem Statement.visitedSeq_numberSeq : ∀ (n : Nat) (ss : List Statement),
    Statement.PairedSeq 1 ss →
    Command.passesSeq true (Statement.numberSeq n ss) = true ∧
      Command.visitedSeq true (Statement.numberSeq n ss) =
        (Command.nestedLoops (Statement.numberSeq n ss)).map Loop.index
  | _, [], _ => by
    simp only [Statement.numberSeq, Command.passesSeq, Command.visitedSeq, Command.nestedLoops,
      List.map_nil, and_self]
  | n, a :: ss, h => by
    rw [Statement.PairedSeq] at h
    obtain ⟨hpasses, hvisited⟩ := Statement.visited_number n a h.1
    obtain ⟨hpasses', hvisited'⟩ := Statement.visitedSeq_numberSeq (n + a.loops) ss h.2
    rw [Statement.numberSeq, Command.passesSeq, Command.visitedSeq, Command.nestedLoops_cons,
      hpasses, hvisited, hvisited', List.map_append]
    exact ⟨hpasses', rfl⟩

/-- Branches with a body for every guard are passed, and all their loops are visited. -/
theorem Statement.visitedBranches_numberBodies : ∀ (n : Nat) (guards : List Predicate)
    (bs : List (List Statement)), guards.length = bs.length → Statement.PairedBodies 1 bs →
    (1 ≤ guards.length →
        Command.passesBranches guards (Statement.numberBodies n bs) = true) ∧
      Command.visitedBranches guards (Statement.numberBodies n bs) =
        (Command.bodyLoops (Statement.numberBodies n bs)).map Loop.index
  | _, [], [], _, _ => by
    simp [Statement.numberBodies, Command.visitedBranches, Command.bodyLoops]
  | _, [], _ :: _, hlen, _ | _, _ :: _, [], hlen, _ => by cases hlen
  | n, g :: guards, b :: bs, hlen, h => by
    rw [Statement.PairedBodies] at h
    obtain ⟨hpasses, hvisited⟩ := Statement.visitedSeq_numberSeq n b h.1
    obtain ⟨-, hvisited'⟩ := Statement.visitedBranches_numberBodies
      (n + Statement.countLoops b) guards bs (Nat.succ.inj hlen) h.2
    rw [Statement.numberBodies, Command.passesBranches, Command.visitedBranches,
      Command.bodyLoops, hpasses, hvisited, hvisited', List.map_append]
    exact ⟨fun _ => Bool.true_or _, rfl⟩

end

namespace Program

/-- Every choice and every loop of a program has as many guards as bodies, and every choice has at
least `least` of them. -/
def Paired (p : Program) (least : Nat) : Prop :=
  Statement.PairedSeq least p.statements

/-- The numbers of the loops of a program that the rules come to. -/
def visitedLoops (p : Program) : List Nat :=
  Command.visitedSeq true (Statement.numberSeq 0 p.statements)

/-- All loops are visited if no choice is without branches. -/
theorem mem_visitedLoops {p : Program} (h : p.Paired 1) {k : Nat} (hpos : 1 ≤ k)
    (hle : k ≤ p.countLoops) : k ∈ p.visitedLoops := by
  obtain ⟨l, hl, rfl⟩ := exists_mem_numberedLoops hpos hle
  rw [visitedLoops, (Statement.visitedSeq_numberSeq 0 p.statements h).2]
  exact List.mem_map_of_mem hl

end Program

end GuardedCommand
