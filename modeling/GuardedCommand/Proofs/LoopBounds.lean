import GuardedCommand.Proofs.LoopSpecifications
import GuardedCommand.Proofs.Termination

/-! # What the obligations say about the bounds of nested loops

The obligations of a loop measure its bound on the bodies without the loops inside them, and ask
that the bodies of these inner loops, again without loops, leave the bound alone. Together this does
not make a whole body decrease the bound: an inner loop may change what the rest of the body
decreases the bound by. It does if the inner loops are apart from the rest.

Obligations are generated for the visited loops only. A loop in a body without a guard, or in a
choice behind one without branches, is not among them.

* `Loop.Checked`: the premises of a loop about its bound.
* `Triple.loops_checked`: if the obligations hold, all visited loops are checked.
* `Verified`: the obligations of a program hold; `bound_of_obligations`: what follows for the bodies
  of its loops.
* `BodiesDecrease`: all bodies decrease the bounds of their loops, which the bodies of a verified
  program need not do.
-/

namespace GuardedCommand

variable {I : Interpretation} {d : Demand} {specs : List LoopSpec} {q r : Predicate}
  {before after : List Command}

/-! ## Premises about bounds -/

/-- The premises of a loop about its bound are correct, as far as executions end. -/
structure Loop.Checked (I : Interpretation) (l : Loop) (spec : LoopSpec) : Prop where
  /-- Every branch decreases the bound, apart from the loops inside it. -/
  decrease : ∀ guard body, (guard, body) ∈ l.guards.zip l.bodies → ∃ n text,
    Triple.Correct I .safe
      ⟨spec.invariant.and guard, .comp .lt spec.bound (.name (auxiliaryName 't' n)),
        .snapshot (auxiliaryName 't' n) spec.bound text :: Command.stripLoops body⟩
  /-- The bodies of inner loops leave the bound alone, apart from the loops inside them. -/
  stability : ∀ m ∈ Command.bodyLoops l.bodies, ∀ body ∈ m.bodies, ∃ n,
    Triple.Correct I .safe
      ⟨.comp .eq (.name (auxiliaryName 'T' n)) spec.bound,
        .comp .eq (.name (auxiliaryName 'T' n)) spec.bound, Command.stripLoops body⟩

/-- All loops that are visited in a sequence are checked against their specifications. -/
def LoopsChecked (I : Interpretation) (specs : List LoopSpec) (cs : List Command) : Prop :=
  ∀ k ∈ Command.visitedSeq true cs, ∃ l ∈ Command.nestedLoops cs, l.index = k ∧
    ∀ spec, specs[k - 1]? = some spec → l.Checked I spec

/-- The loops in a sequence with a choice are checked if those of its premises are. -/
theorem Choice.loopsChecked {g : Choice} (hbefore : ∀ c ∈ before, c.IsElementary)
    (hafter : ∀ c ∈ after, ∀ i guards bodies r, c ≠ .loop i guards bodies r)
    (h : g.Follows (fun t => LoopsChecked I specs t.commands) before after q r) :
    LoopsChecked I specs (before ++ .cond g.guards g.bodies g.range :: after) := by
  intro k hk
  -- the loop is visited in a part, and a loop of a part is one of the sequence
  obtain ⟨cs, hpart, hk⟩ := (Choice.mem_visitedSeq_iff hbefore hafter).mp hk
  have hcs : LoopsChecked I specs cs := by
    cases hpart with
    | entry => exact h.entry
    | branch hmem =>
      obtain ⟨reachable, -, hbranch⟩ := h.branch _ _ hmem
      exact hbranch
  obtain ⟨l, hl, hchecked⟩ := hcs k hk
  refine ⟨l, ?_, hchecked⟩
  exact hpart.of_composable (Command.composable_forall_nestedLoops (· ∈ Command.nestedLoops _))
    (fun _ hm => hm) l hl

/-- The loops in a sequence with a loop are checked if the premises for it are correct and the loops
in them are checked. -/
theorem Loop.loopsChecked {F : Predicate → Prop} {l : Loop} {spec : LoopSpec}
    (hspec : specs[l.index - 1]? = some spec)
    (hcorrect : l.Follows F (Triple.Correct I .safe) spec before after q r)
    (h : l.Follows F (fun t => LoopsChecked I specs t.commands) spec before after q r) :
    LoopsChecked I specs (before ++ .loop l.index l.guards l.bodies l.range :: after) := by
  intro k hk
  rcases Loop.mem_visitedSeq_iff.mp hk with rfl | ⟨cs, hpart, hk⟩
  · -- the loop itself
    refine ⟨l, by simp, rfl, fun spec' hspec' => ?_⟩
    rw [hspec] at hspec'
    cases hspec'
    exact ⟨hcorrect.decrease, hcorrect.stability⟩
  · have hcs : LoopsChecked I specs cs := by
      cases hpart with
      | entry => exact h.entry
      | body hmem => exact h.preservation _ _ hmem
      | exit => exact h.exit
    obtain ⟨m, hm, hchecked⟩ := hcs k hk
    refine ⟨m, ?_, hchecked⟩
    exact hpart.of_composable (Command.composable_forall_nestedLoops (· ∈ Command.nestedLoops _))
      (fun _ hm => hm) m hm

/-- If the obligations of a triple hold in all states, the loops that are visited in it are
checked. -/
theorem Triple.loops_checked {t : Triple} {context : List Frame} {n n' : Nat}
    {obs : List Obligation} (h : t.obligations specs context n = .ok (obs, n'))
    (hvalid : ∀ o ∈ obs, ∀ s, o.predicate.Holds I s) (hmatched : Command.Matched t.commands) :
    LoopsChecked I specs t.commands := by
  refine (Triple.follows_induction (F := fun p => ∀ s, p.Holds I s)
    (S := fun t => t.Correct I .safe ∧ LoopsChecked I specs t.commands)
    Command.composable_matched ?_ ?_ ?_ h hvalid hmatched).2
  · intro q r cs pre hwp hF
    refine ⟨Triple.correct_of_wpSeq hwp hF, fun k hk => ?_⟩
    rw [Command.visitedSeq_eq_nil_of_isElementary (Command.isElementary_of_wpSeq hwp)] at hk
    cases hk
  · intro q r before g after hrule hbefore hm hfollows
    have hafter : ∀ c ∈ after, ∀ i guards bodies r, c ≠ .loop i guards bodies r := fun c hc =>
      Rule.not_loop_of_choice hrule c (List.mem_append_right _ (List.mem_cons_of_mem _ hc))
    exact ⟨Choice.correct hbefore hm.length_cond (hfollows.mono fun _ ht => ht.1),
      Choice.loopsChecked hbefore hafter (hfollows.mono fun _ ht => ht.2)⟩
  · intro q r before l after spec hspec hm hfollows
    have hcorrect := hfollows.mono fun _ ht => ht.1
    exact ⟨Loop.correct_safe hm.length_loop hcorrect,
      Loop.loopsChecked hspec hcorrect (hfollows.mono fun _ ht => ht.2)⟩

/-! ## Bodies without their loops -/

namespace Command

/-- A bound that stays equal to a name which is not mentioned does not change. -/
theorem ensures_eq_of_unchanged {x : String} {bound : IntExpr} {cs : List Command} {s : State}
    (hbound : x ∉ bound.freeNames) (hx : x ∉ Statement.mentionedSeq (eraseSeq cs))
    (h : Triple.Correct I d ⟨.comp .eq (.name x) bound, .comp .eq (.name x) bound, cs⟩) :
    Ensures I d (fun s' => bound.eval I s' = bound.eval I s) (.running (eraseSeq cs) s) := by
  have hunchanged : ∀ u, (Predicate.comp .eq (.name x) bound).Holds I
      (Function.update u x (.int (bound.eval I s))) ↔ bound.eval I s = bound.eval I u := by
    intro u
    rw [Predicate.holds_comp, IntExpr.eval_update_of_notMem hbound]
    simp [IntExpr.eval, CompOp.Compares]
  -- the name is given the value of the bound
  have hstart := h (Function.update s x (.int (bound.eval I s))) ((hunchanged s).mpr rfl)
  exact (ensures_of_update hx hstart).mono fun s' hs' => ((hunchanged s').mp hs').symm

end Command

variable {l : Loop} {spec : LoopSpec} {s s' : State}

/-- A branch without its loops cannot fail, and decreases the bound. -/
theorem Loop.Checked.ensures_lt (h : l.Checked I spec)
    (hbound : ∀ x ∈ spec.bound.freeNames, ¬ IsAuxiliary x) {guard : Predicate}
    {body : List Command} (hmem : (guard, body) ∈ l.guards.zip l.bodies)
    (hbody : ∀ x ∈ Statement.mentionedSeq (Command.eraseSeq body), ¬ IsAuxiliary x)
    (hs : spec.invariant.Holds I s) (hguard : guard.Holds I s) :
    Ensures I .safe (fun s' => spec.bound.eval I s' < spec.bound.eval I s)
      (.running (Command.eraseSeq (Command.stripLoops body)) s) := by
  obtain ⟨n, text, hdecrease⟩ := h.decrease guard body hmem
  have haux := isAuxiliary_auxiliaryName 't' n
  exact Command.ensures_lt_of_snapshot (fun hx => hbound _ hx haux)
    (fun hx => hbody _ (Command.collectSeq_stripLoops_subset body hx) haux)
    (hdecrease s ((Predicate.holds_and ..).mpr ⟨hs, hguard⟩))

/-- A body of an inner loop, without the loops inside it, cannot fail, and keeps the bound. -/
theorem Loop.Checked.ensures_eq (h : l.Checked I spec)
    (hbound : ∀ x ∈ spec.bound.freeNames, ¬ IsAuxiliary x) {m : Loop} {body : List Command}
    (hm : m ∈ Command.bodyLoops l.bodies) (hmem : body ∈ m.bodies)
    (hbody : ∀ x ∈ Statement.mentionedSeq (Command.eraseSeq body), ¬ IsAuxiliary x) (s : State) :
    Ensures I .safe (fun s' => spec.bound.eval I s' = spec.bound.eval I s)
      (.running (Command.eraseSeq (Command.stripLoops body)) s) := by
  obtain ⟨n, hstability⟩ := h.stability m hm body hmem
  have haux := isAuxiliary_auxiliaryName 'T' n
  exact Command.ensures_eq_of_unchanged (fun hx => hbound _ hx haux)
    (fun hx => hbody _ (Command.collectSeq_stripLoops_subset body hx) haux) hstability

/-! ## Bodies of verified programs -/

/-- The obligations of the program hold in all states. It has enough bodies, and no name in it or in
a bound is auxiliary. -/
structure Verified (I : Interpretation) (spec : Spec) (program : Program) : Prop where
  /-- No guard lacks a body. -/
  matched : program.Matched
  /-- The program does without auxiliary names. -/
  names : ∀ x ∈ Statement.mentionedSeq program.statements, ¬ IsAuxiliary x
  /-- The bounds do without auxiliary names. -/
  bounds : ∀ loop ∈ spec.loops, ∀ x ∈ loop.bound.freeNames, ¬ IsAuxiliary x
  /-- There are obligations, and they hold. -/
  valid : ∃ obligations, generate spec program = .ok obligations ∧
    ∀ o ∈ obligations, ∀ s, o.predicate.Holds I s

/-- The loops that are visited in a verified program are checked. -/
theorem Verified.checked {spec : Spec} {program : Program} (h : Verified I spec program)
    (hl : l ∈ program.numberedLoops) (hvisited : l.index ∈ program.visitedLoops)
    {loopSpec : LoopSpec} (hspec : spec.loops[l.index - 1]? = some loopSpec) :
    l.Checked I loopSpec := by
  obtain ⟨obligations, hgenerate, hvalid⟩ := h.valid
  obtain ⟨n, hobs⟩ := exists_of_generate hgenerate
  obtain ⟨m, hm, hindex, hchecked⟩ :=
    Triple.loops_checked hobs hvalid (Command.matched_numberSeq h.matched 0) l.index hvisited
  obtain rfl := Program.eq_of_index_eq hm hl hindex
  exact hchecked loopSpec hspec

/-- No name in the body of a loop of a verified program is auxiliary. -/
theorem Verified.not_isAuxiliary {spec : Spec} {program : Program} (h : Verified I spec program)
    (hl : l ∈ program.numberedLoops) {body : List Command} (hbody : body ∈ l.bodies) :
    ∀ x ∈ Statement.mentionedSeq (Command.eraseSeq body), ¬ IsAuxiliary x := by
  intro x hx
  exact h.names x (Command.mentionedSeq_subset_of_numberSeq hl hbody hx)

/-- In a verified program the branches of a loop that is visited decrease its bound as far as they
lie outside of inner loops, and the bodies of inner loops, as far as they lie outside of further
loops, keep it. A whole branch decreases the bound if its loops are apart from the rest. -/
theorem bound_of_obligations {spec : Spec} {program : Program} (h : Verified I spec program)
    {l : Loop} (hl : l ∈ program.numberedLoops) (hvisited : l.index ∈ program.visitedLoops)
    {loopSpec : LoopSpec} (hspec : spec.loops[l.index - 1]? = some loopSpec) {guard : Predicate}
    {body : List Command} (hmem : (guard, body) ∈ l.guards.zip l.bodies) :
    (∀ s s', loopSpec.invariant.Holds I s → guard.Holds I s →
      Runs I (Command.eraseSeq (Command.stripLoops body)) s s' →
      loopSpec.bound.eval I s' < loopSpec.bound.eval I s) ∧
    (∀ m ∈ Command.nestedLoops body, ∀ b ∈ m.bodies, ∀ s s',
      Runs I (Command.eraseSeq (Command.stripLoops b)) s s' →
      loopSpec.bound.eval I s' = loopSpec.bound.eval I s) ∧
    (Apart loopSpec.bound body → ∀ s s', loopSpec.invariant.Holds I s → guard.Holds I s →
      Runs I (Command.eraseSeq body) s s' →
      loopSpec.bound.eval I s' < loopSpec.bound.eval I s) := by
  have hchecked := h.checked hl hvisited hspec
  have hbound := h.bounds loopSpec (List.mem_of_getElem? hspec)
  have hbody := (List.of_mem_zip hmem).2
  -- Step 5 is about the body without its loops, step 6 about the bodies of these loops.
  have hdecrease : ∀ s, loopSpec.invariant.Holds I s → guard.Holds I s →
      Ensures I .safe (fun s' => loopSpec.bound.eval I s' < loopSpec.bound.eval I s)
        (.running (Command.eraseSeq (Command.stripLoops body)) s) := by
    intro s hs hguard
    exact hchecked.ensures_lt hbound hmem (h.not_isAuxiliary hl hbody) hs hguard
  have hkeep : BodiesKeep I loopSpec.bound body := by
    intro m hm b hb s
    have hmloop := Command.mem_nestedLoops_of_mem_body hl hbody hm
    exact hchecked.ensures_eq hbound (Command.mem_bodyLoops.mpr ⟨body, hbody, hm⟩) hb
      (h.not_isAuxiliary hmloop hb) s
  refine ⟨fun s s' hs hguard hrun => ?_, fun m hm b hb s s' hrun => ?_,
    fun hapart s s' hs hguard hrun => ?_⟩
  · exact ensures_nil.mp ((hdecrease s hs hguard).steps hrun)
  · exact ensures_nil.mp ((hkeep m hm b hb s).steps hrun)
  · -- the execution without inner loops ends with the same bound
    obtain ⟨u, hu, heq⟩ := hapart.exists_runs hkeep (Agrees.refl s) hrun
      ((hdecrease s hs hguard).mono fun _ _ => trivial)
    rw [← heq]
    exact ensures_nil.mp ((hdecrease s hs hguard).steps hu)

/-- A program is verified if the predicates of its obligations hold in all states. -/
theorem Verified.of_predicates {spec : Spec} {program : Program} {ps : List Predicate}
    (hmatched : program.Matched)
    (hnames : ∀ x ∈ Statement.mentionedSeq program.statements, ¬ IsAuxiliary x)
    (hbounds : ∀ loop ∈ spec.loops, ∀ x ∈ loop.bound.freeNames, ¬ IsAuxiliary x)
    (h : (generate spec program).map (·.map Obligation.predicate) = .ok ps)
    (hps : ∀ s, ∀ p ∈ ps, p.Holds I s) : Verified I spec program := by
  obtain ⟨obligations, hgenerate, hiff⟩ := exists_obligations_of_predicates (I := I) h
  refine ⟨hmatched, hnames, hbounds, obligations, hgenerate, fun o ho s => ?_⟩
  exact (hiff s).mpr (hps s) o ho

/-- The program
`do n > 0 → do x > 0 → x, y := x - 1, y + 1 od; if y > z → z := y | y ≤ z → skip fi;`
`n := n - 1 od`, which keeps the largest `y` in `z`. -/
def transfer : Program :=
  let n : IntExpr := .name "n"
  let x : IntExpr := .name "x"
  let y : IntExpr := .name "y"
  let z : IntExpr := .name "z"
  { statements := [
      .loop [.comp .gt n (.const 0)]
        [[.loop [.comp .gt x (.const 0)]
            [[.assign ⟨[.name "x", .name "y"],
              [.int (.minus x (.const 1)), .int (.plus y (.const 1))], .zero⟩]] .zero,
          .cond [.comp .gt y z, .comp .le y z]
            [[.assign ⟨[.name "z"], [.int y], .zero⟩], [.skip .zero]] .zero,
          .assign ⟨[.name "n"], [.int (.minus n (.const 1))], .zero⟩]] .zero] }

/-- The bound of the outer loop of `transfer` is `n + (x + y)`, which the inner loop writes to and
does not change. -/
def transferSpec : Spec :=
  let x : IntExpr := .name "x"
  let y : IntExpr := .name "y"
  let nonneg : Predicate := .and (.comp .ge x (.const 0)) (.comp .ge y (.const 0))
  { precondition := nonneg
    postcondition := .const true
    loops := [⟨nonneg, .plus (.name "n") (.plus x y)⟩, ⟨nonneg, x⟩] }

/-- The predicates of the obligations of `transfer`. -/
theorem transfer_obligations :
    let n : IntExpr := .name "n"
    let x : IntExpr := .name "x"
    let y : IntExpr := .name "y"
    let bound : IntExpr := .plus n (.plus x y)
    let nonneg : Predicate := .and (.comp .ge x (.const 0)) (.comp .ge y (.const 0))
    let outer : Predicate := .comp .gt n (.const 0)
    let inner : Predicate := .comp .gt x (.const 0)
    let above : Predicate := .comp .gt y (.name "z")
    let upTo : Predicate := .comp .le y (.name "z")
    let less : IntExpr := .minus x (.const 1)
    let more : IntExpr := .plus y (.const 1)
    let decreased : Predicate := .comp .lt (.plus (.minus n (.const 1)) (.plus x y)) bound
    (generate transferSpec transfer).map (·.map Obligation.predicate) = .ok [
      .implies nonneg nonneg,
      .implies (.and nonneg outer) nonneg,
      .implies (.and nonneg inner) (.and (.comp .ge less (.const 0)) (.comp .ge more (.const 0))),
      .implies (.and nonneg (.not inner)) (.anyOf [above, upTo]),
      .implies (.and (.and nonneg (.not inner)) above) nonneg,
      .implies (.and (.and nonneg (.not inner)) upTo) nonneg,
      .implies (.and nonneg inner) inner,
      .implies (.and nonneg inner) (.comp .lt less x),
      .implies (.and nonneg (.not outer)) (.const true),
      .implies (.and nonneg outer) (.comp .gt bound (.const 0)),
      .implies (.and nonneg outer) (.anyOf [above, upTo]),
      .implies (.and (.and nonneg outer) above) decreased,
      .implies (.and (.and nonneg outer) upTo) decreased,
      .implies (.comp .eq (.name "@T2") bound)
        (.comp .eq (.name "@T2") (.plus n (.plus less more)))] := by
  decide +kernel

/-- The obligations of `transfer` hold. -/
theorem transfer_verified : Verified I transferSpec transfer := by
  refine .of_predicates ?_ (by decide +kernel) (by decide +kernel) transfer_obligations ?_
  · simp [Program.Matched, transfer, Statement.MatchedSeq, Statement.Matched,
      Statement.MatchedBodies]
  · intro s
    simp only [List.forall_mem_cons, Predicate.holds_implies, Predicate.holds_and,
      Predicate.holds_anyOf, List.exists_mem_cons_iff, List.not_mem_nil, false_and, exists_false,
      or_false, Predicate.Holds, CompOp.Compares, IntExpr.minus, IntExpr.plus,
      IntExpr.value, ArithOp.apply, Value.toInt_int]
    refine ⟨?_, ?_, ?_, ?_, ?_, ?_, ?_, ?_, fun _ => trivial, ?_, ?_, ?_, ?_, ?_, by simp⟩
    all_goals omega

/-- The inner loop of `transfer`. -/
def transferInner : Loop :=
  ⟨2, [.comp .gt (.name "x") (.const 0)],
    [[.assign ⟨[.name "x", .name "y"],
      [.int (.minus (.name "x") (.const 1)), .int (.plus (.name "y") (.const 1))], .zero⟩]], .zero⟩

/-- The choice of `transfer`, which depends on what the inner loop does. -/
def transferChoice : Command :=
  .cond [.comp .gt (.name "y") (.name "z"), .comp .le (.name "y") (.name "z")]
    [[.assign ⟨[.name "z"], [.int (.name "y")], .zero⟩], [.skip .zero]] .zero

/-- The last assignment of `transfer`. -/
def transferStep : Assign :=
  ⟨[.name "n"], [.int (.minus (.name "n") (.const 1))], .zero⟩

/-- The body of the outer loop of `transfer`. -/
def transferBody : List Command :=
  [transferInner.command, transferChoice, .assign transferStep]

/-- The outer loop of `transfer`. -/
def transferOuter : Loop :=
  ⟨1, [.comp .gt (.name "n") (.const 0)], [transferBody], .zero⟩

/-- Whatever other names may differ, `n` does not differ after the last assignment of `transfer`. -/
theorem notMem_spread_transferStep {D : Set String} (h : "n" ∉ D) :
    "n" ∉ transferStep.spread D := by
  rintro (⟨hn, -⟩ | ⟨v, e, hmem, -, hreads⟩)
  · exact h hn
  · obtain ⟨rfl, rfl⟩ : v = .name "n" ∧ e = .int (.minus (.name "n") (.const 1)) := by
      simpa [transferStep] using hmem
    have hvalue : (Expr.int (.minus (.name "n") (.const 1))).freeNames = ["n"] := rfl
    rcases hreads with ⟨y, hy, hne, -⟩ | ⟨y, hy, hD⟩
    · have htarget : (Variable.name "n").freeNames = ["n"] := rfl
      rw [htarget, List.mem_singleton] at hy
      subst hy
      exact hne rfl
    · rw [hvalue, List.mem_singleton] at hy
      subst hy
      exact h hD

/-- The outer loop of `transfer` decreases `n`, which the inner loop does not mention, and which the
choice does not write. -/
theorem transfer_apart :
    Apart (.plus (.name "n") (.plus (.name "x") (.name "y"))) transferBody := by
  have hinner : ∀ l ∈ transferInner.command.nestedLoop, l = transferInner := by
    intro l hl
    exact List.mem_singleton.mp hl
  -- the executions may differ in `n` from the start, but nowhere else in the bound
  suffices hstart : ApartAfter (.plus (.name "n") (.plus (.name "x") (.name "y"))) ∅ {"n"}
      transferBody from .reset (fun _ _ _ => Set.notMem_empty _) hstart
  refine .differ (fun x _ hx => ?_) (fun l hl _ x hx hn => ?_) (fun l hl _ g b hb => ?_) ?_
  · cases hx
  · obtain rfl := hinner l hl
    subst hn
    exact absurd hx (by decide +kernel)
  · obtain rfl := hinner l hl
    obtain ⟨-, rfl⟩ : _ ∧ b = _ := Prod.mk.inj (List.mem_singleton.mp hb)
    exact Apart.of_nestedLoops rfl
  refine .differ (fun x hx hx' => ?_) (fun l hl => ?_) (fun l hl => ?_) ?_
  · -- the choice writes `z`, which is not a name of the bound
    obtain rfl := List.mem_singleton.mp hx'
    exact absurd hx (by decide +kernel)
  · cases hl
  · cases hl
  refine .assign rfl (fun x _ hx => List.mem_singleton.mp hx) ?_
  refine .narrow (Set.empty_subset _) (fun x _ hx _ => ?_) .nil
  obtain rfl : x = "n" := hx
  refine notMem_spread_transferStep ?_
  rintro ((hn | hn) | hn)
  · exact hn
  · exact absurd hn (by decide +kernel : "n" ∉ Statement.assignedSeq [transferInner.command.erase])
  · exact absurd hn (by decide +kernel : "n" ∉ Statement.assignedSeq [transferChoice.erase])

/-- From `n = x = y = z = 1` the body of the outer loop of `transfer` moves one unit. -/
theorem transfer_runs : Runs I (Command.eraseSeq transferBody) (fun _ => .int 1)
    (Function.update (Function.update (Function.update (Function.update (fun _ => .int 1)
      "x" (.int 0)) "y" (.int 2)) "z" (.int 2)) "n" (.int 0)) := by
  show Runs I [transferInner.statement, transferChoice.erase, .assign transferStep] _ _
  rw [runs_cons]
  refine ⟨_, runs_loop.mpr ⟨.single (iterates_cons.mpr (.inl ⟨?_, runs_assign.mpr rfl⟩)), ?_⟩, ?_⟩
  · show (1 : Int) > 0
    decide
  · intro g hg
    obtain rfl := List.mem_singleton.mp hg
    show ¬ (0 : Int) > 0
    decide
  · rw [runs_cons]
    refine ⟨_, runs_cond.mpr (iterates_cons.mpr (.inl ⟨?_, runs_assign.mpr rfl⟩)),
      runs_assign.mpr rfl⟩
    show (2 : Int) > 1
    decide

/-- The bound of the outer loop of `transfer` decreases when its body moves one unit, although the
inner loop writes to the bound and the body goes on differently after it. -/
theorem transfer_bound :
    let bound : IntExpr := .plus (.name "n") (.plus (.name "x") (.name "y"))
    let invariant : Predicate :=
      .and (.comp .ge (.name "x") (.const 0)) (.comp .ge (.name "y") (.const 0))
    let guard : Predicate := .comp .gt (.name "n") (.const 0)
    let s : State := fun _ => .int 1
    let s' : State := Function.update (Function.update (Function.update (Function.update s
      "x" (.int 0)) "y" (.int 2)) "z" (.int 2)) "n" (.int 0)
    Verified .null transferSpec transfer ∧
      transferOuter ∈ transfer.numberedLoops ∧ transferOuter.index ∈ transfer.visitedLoops ∧
      transferSpec.loops[transferOuter.index - 1]? = some ⟨invariant, bound⟩ ∧
      (guard, transferBody) ∈ transferOuter.guards.zip transferOuter.bodies ∧
      Command.nestedLoops transferBody = [transferInner] ∧ transferInner.Writes bound ∧
      Apart bound transferBody ∧ invariant.Holds .null s ∧ guard.Holds .null s ∧
      Runs .null (Command.eraseSeq transferBody) s s' ∧
      bound.eval .null s' < bound.eval .null s := by
  intro bound invariant guard s s'
  have hloop : transferOuter ∈ transfer.numberedLoops := List.mem_cons_self
  have hvisited : transferOuter.index ∈ transfer.visitedLoops := by decide +kernel
  have hspec : transferSpec.loops[transferOuter.index - 1]? = some ⟨invariant, bound⟩ := rfl
  have hmem : (guard, transferBody) ∈ transferOuter.guards.zip transferOuter.bodies :=
    List.mem_singleton_self _
  have hwrites : transferInner.Writes bound := ⟨"x", by decide +kernel, by decide +kernel⟩
  have hs : invariant.Holds .null s := by
    simp [invariant, s, Predicate.holds_comp, CompOp.Compares, IntExpr.eval, IntExpr.value]
  have hguard : guard.Holds .null s := by
    simp [guard, s, Predicate.holds_comp, CompOp.Compares, IntExpr.eval, IntExpr.value]
  obtain ⟨-, -, hbound⟩ := bound_of_obligations transfer_verified hloop hvisited hspec hmem
  exact ⟨transfer_verified, hloop, hvisited, hspec, hmem, rfl, hwrites, transfer_apart, hs, hguard,
    transfer_runs, hbound transfer_apart s s' hs hguard transfer_runs⟩

/-! ## Verified programs whose bodies do not decrease their bounds -/

/-- Every branch with loops inside it decreases the bound of the loop it belongs to. -/
def BodiesDecrease (I : Interpretation) (spec : Spec) (program : Program) : Prop :=
  ∀ l ∈ Command.nestedLoops (Statement.numberSeq 0 program.statements), ∀ loopSpec,
    spec.loops[l.index - 1]? = some loopSpec →
    ∀ guard body, (guard, body) ∈ l.guards.zip l.bodies → Command.nestedLoops body ≠ [] →
    ∀ s s', loopSpec.invariant.Holds I s → guard.Holds I s →
    Runs I (Command.eraseSeq body) s s' → loopSpec.bound.eval I s' < loopSpec.bound.eval I s

/-- The program `do x > 0 → do y > 0 → y := y - 1 od; x := x - y; y := 1 od`. Its inner loop leaves
`x` alone, and makes `y` zero before `x` is decreased by it. -/
def slack : Program :=
  let x : IntExpr := .name "x"
  let y : IntExpr := .name "y"
  { statements := [
      .loop [.comp .gt x (.const 0)]
        [[.loop [.comp .gt y (.const 0)]
            [[.assign ⟨[.name "y"], [.int (.minus y (.const 1))], .zero⟩]] .zero,
          .assign ⟨[.name "x"], [.int (.minus x y)], .zero⟩,
          .assign ⟨[.name "y"], [.int (.const 1)], .zero⟩]] .zero] }

/-- The bounds of the loops of `slack` are `x` and `y`. -/
def slackSpec : Spec :=
  let x : IntExpr := .name "x"
  let y : IntExpr := .name "y"
  { precondition := .comp .eq y (.const 1)
    postcondition := .const true
    loops := [⟨.comp .eq y (.const 1), x⟩, ⟨.comp .ge y (.const 0), y⟩] }

/-- The obligations of `slack`. -/
theorem slack_obligations :
    let x : IntExpr := .name "x"
    let y : IntExpr := .name "y"
    let one : Predicate := .comp .eq y (.const 1)
    let nonneg : Predicate := .comp .ge y (.const 0)
    let outer : Predicate := .comp .gt x (.const 0)
    let inner : Predicate := .comp .gt y (.const 0)
    let less : IntExpr := .minus y (.const 1)
    let unchanged : Predicate := .comp .eq (.name "@T2") x
    (generate slackSpec slack).map (·.map Obligation.predicate) = .ok [
      .implies one one,
      .implies (.and one outer) nonneg,
      .implies (.and nonneg inner) (.comp .ge less (.const 0)),
      .implies (.and nonneg (.not inner)) (.comp .eq (.const 1) (.const 1)),
      .implies (.and nonneg inner) inner,
      .implies (.and nonneg inner) (.comp .lt less y),
      .implies (.and one (.not outer)) (.const true),
      .implies (.and one outer) outer,
      .implies (.and one outer) (.comp .lt (.minus x y) x),
      .implies unchanged unchanged] := by
  decide +kernel

/-- The obligations of `slack` hold. -/
theorem slack_verified : Verified I slackSpec slack := by
  refine .of_predicates ?_ (by decide +kernel) (by decide +kernel) slack_obligations ?_
  · simp [Program.Matched, slack, Statement.MatchedSeq, Statement.Matched,
      Statement.MatchedBodies]
  · intro s
    simp only [List.forall_mem_cons, Predicate.holds_implies, Predicate.holds_and,
      Predicate.Holds, CompOp.Compares, IntExpr.minus, IntExpr.value, ArithOp.apply,
      Value.toInt_int]
    refine ⟨?_, ?_, ?_, fun _ => trivial, ?_, ?_, fun _ => trivial, ?_, ?_, ?_, by simp⟩
    all_goals omega

/-- The body of the outer loop of `slack`. -/
def slackBody : List Command :=
  [.loop 2 [.comp .gt (.name "y") (.const 0)]
      [[.assign ⟨[.name "y"], [.int (.minus (.name "y") (.const 1))], .zero⟩]] .zero,
    .assign ⟨[.name "x"], [.int (.minus (.name "x") (.name "y"))], .zero⟩,
    .assign ⟨[.name "y"], [.int (.const 1)], .zero⟩]

/-- From `x = y = 1` the body of the outer loop of `slack` returns to `x = y = 1`. -/
theorem slack_runs : Runs I (Command.eraseSeq slackBody) (fun _ => .int 1)
    (Function.update (Function.update (Function.update (fun _ => .int 1) "y" (.int 0)) "x" (.int 1))
      "y" (.int 1)) := by
  rw [slackBody, Command.eraseSeq_cons, runs_cons]
  refine ⟨_, runs_loop.mpr ⟨.single (iterates_cons.mpr (.inl ⟨?_, runs_assign.mpr rfl⟩)), ?_⟩,
    runs_cons.mpr ⟨_, runs_assign.mpr rfl, runs_assign.mpr rfl⟩⟩
  · show (1 : Int) > 0
    decide
  · intro g hg
    obtain rfl := List.mem_singleton.mp hg
    show ¬ (0 : Int) > 0
    decide

/-- A branch of `slack` does not decrease the bound of its loop. -/
theorem slack_not_bodiesDecrease : ¬ BodiesDecrease I slackSpec slack := by
  intro h
  have hone : (Predicate.comp .eq (.name "y") (.const 1)).Holds I (fun _ => .int 1) := rfl
  have hguard : (Predicate.comp .gt (.name "x") (.const 0)).Holds I (fun _ => .int 1) :=
    show (1 : Int) > 0 by decide
  -- the bound `x` is `1` before and after the body
  have hlt := h ⟨1, [.comp .gt (.name "x") (.const 0)], [slackBody], .zero⟩ List.mem_cons_self
    ⟨.comp .eq (.name "y") (.const 1), .name "x"⟩ rfl _ slackBody (List.mem_singleton_self _)
    (List.cons_ne_nil _ _) _ _ hone hguard slack_runs
  exact absurd hlt (show ¬ (1 : Int) < 1 by decide)

/-- The loop `do T → do F → skip od od`. -/
def idle : Statement :=
  .loop [.const true] [[.loop [.const false] [[.skip .zero]] .zero]] .zero

/-- The invariant of both loops of `idle` is `T`, and the bound is `0`. -/
def idleSpec (precondition : Predicate) : Spec where
  precondition := precondition
  postcondition := .const true
  loops := [⟨.const true, .const 0⟩, ⟨.const true, .const 0⟩]

/-- The body of `idle` does nothing, and so does not decrease the bound. -/
theorem not_bodiesDecrease_of_idle {precondition : Predicate} {program : Program}
    (h : ⟨1, [.const true], [[.loop 2 [.const false] [[.skip .zero]] .zero]], .zero⟩ ∈
      Command.nestedLoops (Statement.numberSeq 0 program.statements)) :
    ¬ BodiesDecrease I (idleSpec precondition) program := by
  intro hdecrease
  have hrun : Runs I [.loop [.const false] [[.skip .zero]] .zero] (fun _ => .int 0)
      (fun _ => .int 0) := by
    rw [runs_loop]
    refine ⟨.refl, fun g hg => ?_⟩
    obtain rfl := List.mem_singleton.mp hg
    exact Bool.false_ne_true
  have hlt := hdecrease _ h ⟨.const true, .const 0⟩ rfl _ _ (List.mem_singleton_self _)
    (List.cons_ne_nil _ _) _ _ rfl rfl hrun
  exact absurd hlt (lt_irrefl (0 : Int))

/-- The program `if T → skip fi` with `idle` in a body that has no guard. -/
def surplus : Program where
  statements := [.cond [.const true] [[.skip .zero], [idle]] .zero]

/-- The obligations of `surplus` hold, since the body without a guard is never visited. -/
theorem surplus_verified : Verified I (idleSpec (.const true)) surplus := by
  have hobligations : (generate (idleSpec (.const true)) surplus).map
      (·.map Obligation.predicate) = .ok [
        .implies (.const true) (.const true),
        .implies (.and (.const true) (.const true)) (.const true)] := by
    decide +kernel
  refine .of_predicates ?_ (by decide +kernel) (by decide +kernel) hobligations ?_
  · simp [Program.Matched, surplus, idle, Statement.MatchedSeq, Statement.Matched,
      Statement.MatchedBodies]
  · simp [Predicate.Holds]

/-- The program `if fi; if T → idle fi`. -/
def guardless : Program where
  statements := [.cond [] [] .zero, .cond [.const true] [[idle]] .zero]

/-- The obligations of `guardless` hold, since its precondition never does. -/
theorem guardless_verified : Verified I (idleSpec (.const false)) guardless := by
  have hobligations : (generate (idleSpec (.const false)) guardless).map
      (·.map Obligation.predicate) = .ok [.implies (.const false) (.const false)] := by
    decide +kernel
  refine .of_predicates ?_ (by decide +kernel) (by decide +kernel) hobligations ?_
  · simp [Program.Matched, guardless, idle, Statement.MatchedSeq, Statement.Matched,
      Statement.MatchedBodies]
  · simp

/-- Verified programs whose bodies do not decrease their bounds: the rest of the body depends on a
loop inside it, or the loop is not visited because its body has no guard or because it lies in a
choice behind one without branches. -/
theorem verified_not_bodiesDecrease :
    (Verified .null slackSpec slack ∧ ¬ BodiesDecrease .null slackSpec slack) ∧
      (Verified .null (idleSpec (.const true)) surplus ∧
        ¬ BodiesDecrease .null (idleSpec (.const true)) surplus) ∧
      (Verified .null (idleSpec (.const false)) guardless ∧
        ¬ BodiesDecrease .null (idleSpec (.const false)) guardless) :=
  ⟨⟨slack_verified, slack_not_bodiesDecrease⟩,
    ⟨surplus_verified, not_bodiesDecrease_of_idle List.mem_cons_self⟩,
    ⟨guardless_verified, not_bodiesDecrease_of_idle List.mem_cons_self⟩⟩

end GuardedCommand
