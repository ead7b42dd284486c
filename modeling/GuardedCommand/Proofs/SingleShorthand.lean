import GuardedCommand.Proofs.Calls
import Mathlib.Data.List.Sort
import Mathlib.Data.String.Basic

/-! # The call of a single shorthand

A shorthand that is defined by the text of a formula is called where the formula could stand: the
call becomes the formula with the arguments for the parameters. There is one exception. The call of
a function and the call of a relation have the same text, and it is read as the latter. A shorthand
whose body is just a call is therefore a predicate, and where an integer stands it stands for
nothing.

* `sortedNames_congr`: parameters are compared with the free names of a body as sets.
* `ShorthandBody.reread`, `ShorthandBody.ofText?_toJson`: what a body is after it was written and
  read.
* `Shorthands.predicate_call`, `Shorthands.int_call`: what a call becomes.
* `Shorthands.define_single`: a single definition.
* `Shorthands.call_of_single`: its calls.
-/

namespace GuardedCommand

/-! ## Names in order -/

/-- The names seen so far stand before what is left when repetitions are erased. -/
theorem eraseReps_loop_eq (a : String) (xs ys : List String) :
    List.eraseRepsBy.loop (· == ·) a xs ys =
      ys.reverse ++ List.eraseRepsBy.loop (· == ·) a xs [] := by
  induction xs generalizing a ys with
  | nil => simp [List.eraseRepsBy.loop]
  | cons b xs ih =>
    by_cases hab : a = b
    · subst hab
      simp only [List.eraseRepsBy.loop, beq_self_eq_true]
      exact ih a ys
    · simp only [List.eraseRepsBy.loop, beq_false_of_ne hab]
      rw [ih b (a :: ys), ih b [a]]
      simp

/-- Of two equal neighbours one is dropped. -/
theorem eraseReps_cons_cons (a b : String) (xs : List String) :
    (a :: b :: xs).eraseReps =
      if a = b then (b :: xs).eraseReps else a :: (b :: xs).eraseReps := by
  simp only [List.eraseReps, List.eraseRepsBy, List.eraseRepsBy.loop]
  by_cases hab : a = b
  · subst hab
    rw [if_pos rfl, beq_self_eq_true]
  · rw [if_neg hab, beq_false_of_ne hab]
    exact eraseReps_loop_eq b xs [a]

/-- No name is gained when repetitions are erased. -/
theorem mem_of_mem_eraseReps {x : String} {xs : List String} (h : x ∈ xs.eraseReps) : x ∈ xs := by
  cases xs with
  | nil => exact h
  | cons a xs =>
    rcases mem_eraseReps_loop.mp h with rfl | h | h
    · exact List.mem_cons_self
    · exact List.mem_cons_of_mem a h
    · cases h

/-- Names in order increase once repetitions are dropped. -/
theorem pairwise_eraseReps {xs : List String} (h : xs.Pairwise (· ≤ ·)) :
    xs.eraseReps.Pairwise (· < ·) := by
  induction xs with
  | nil => exact .nil
  | cons a xs ih =>
    cases xs with
    | nil => exact List.pairwise_singleton _ a
    | cons b xs =>
      obtain ⟨ha, hbs⟩ := List.pairwise_cons.mp h
      rw [eraseReps_cons_cons]
      by_cases hab : a = b
      · rw [if_pos hab]
        exact ih hbs
      · rw [if_neg hab]
        refine List.pairwise_cons.mpr ⟨fun y hy => ?_, ih hbs⟩
        have hlt : a < b := lt_of_le_of_ne (ha b List.mem_cons_self) hab
        -- what is left after `b` is not below `b`
        rcases List.mem_cons.mp (mem_of_mem_eraseReps hy) with rfl | hy
        · exact hlt
        · exact lt_of_lt_of_le hlt (List.rel_of_pairwise_cons hbs hy)

/-- Sorted names are in order. -/
theorem pairwise_mergeSort_names (xs : List String) :
    (xs.mergeSort fun x y => decide (x ≤ y)).Pairwise (· ≤ ·) := by
  have hsorted : (xs.mergeSort fun x y => decide (x ≤ y)).Pairwise
      fun x y => decide (x ≤ y) = true := by
    refine List.pairwise_mergeSort (fun x y z hxy hyz => ?_) (fun x y => ?_) xs
    · exact decide_eq_true (le_trans (of_decide_eq_true hxy) (of_decide_eq_true hyz))
    · simpa using le_total x y
  exact hsorted.imp of_decide_eq_true

/-- The sorted names are in order and without repetitions. -/
theorem pairwise_sortedNames (xs : List String) : (sortedNames xs).Pairwise (· < ·) :=
  pairwise_eraseReps (pairwise_mergeSort_names xs)

/-- Names in order, each once, are determined by the set of them. -/
theorem sortedNames_congr {xs ys : List String} (h : ∀ x, x ∈ xs ↔ x ∈ ys) :
    sortedNames xs = sortedNames ys := by
  refine (pairwise_sortedNames xs).eq_of_mem_iff (pairwise_sortedNames ys) fun x => ?_
  rw [mem_sortedNames, mem_sortedNames, h]

/-! ## Texts of bodies -/

/-- An integer expression is not read as a predicate, unless it is a call. -/
theorem Predicate.decode_toJson_intExpr {e : IntExpr} (h : ∀ g es, e ≠ .call g es) (n : Nat)
    (spelledOut : Bool) : Predicate.decode n spelledOut e.toJson = none := by
  cases n with
  | zero => rw [Predicate.decode]
  | succ n =>
    cases e with
    | call g es => exact absurd rfl (h g es)
    | const c =>
      -- both kinds have constants, but a number is no truth value
      rw [IntExpr.toJson, Predicate.decode, Json.node?_node (by decide) (by simp [Json.tagField])]
      rfl
    | binary op l r =>
      have hnode : (IntExpr.binary op l r).toJson.node? spelledOut Predicate.tags = none := by
        cases op <;> exact Json.node?_node_of_notMem (by simp [IntExpr.tag, Predicate.tags])
          (by simp [Json.tagField]) _
      rw [Predicate.decode, hnode]
      rfl
    | fold op k c d =>
      have hnode : (IntExpr.fold op k c d).toJson.node? spelledOut Predicate.tags = none := by
        cases op <;> exact Json.node?_node_of_notMem (by simp [IntExpr.tag, Predicate.tags])
          (by simp [Json.tagField]) _
      rw [Predicate.decode, hnode]
      rfl
    | var | negate | count =>
      rw [IntExpr.toJson, Predicate.decode,
        Json.node?_node_of_notMem (by decide) (by simp [Json.tagField])]
      rfl

namespace ShorthandBody

/-- A body as a JSON value. -/
def toJson : ShorthandBody → Json
  | .predicate p => p.toJson
  | .int e => e.toJson

/-- All literals of a body can be written. -/
def Fits : ShorthandBody → Prop
  | .predicate p => p.Fits
  | .int e => e.Fits

/-- What a body is after it was written and read: the call of a function is taken for the call of a
relation. -/
def reread : ShorthandBody → ShorthandBody
  | .int (.call g es) => .predicate (.call g es)
  | b => b

variable {b : ShorthandBody} {e : IntExpr}

/-- Only a call is read again as something else than an integer. -/
theorem reread_int (h : ∀ g es, e ≠ .call g es) : reread (.int e) = .int e := by
  cases e with
  | call g es => exact absurd rfl (h g es)
  | const | var | negate | binary | fold | count => rfl

/-- The text of an integer expression other than a call gives it as a body. -/
theorem ofText?_of_int (h : e.Fits) (hn : e.toJson.nesting ≤ Json.nestingLimit)
    (hcall : ∀ g es, e ≠ .call g es) : ofText? e.toJson.compact = some (.int e) := by
  have hpredicate : Predicate.ofText? e.toJson.compact = none := by
    rw [Predicate.ofText?, Json.readText?_compact (e.isExact_toJson h) hn]
    exact Predicate.decode_toJson_intExpr hcall _ _
  rw [ofText?, hpredicate, IntExpr.ofText?_toJson h hn]
  rfl

/-- The text of a body is read as the body, or as the call of a relation if it is a call. -/
theorem ofText?_toJson (h : b.Fits) (hn : b.toJson.nesting ≤ Json.nestingLimit) :
    ofText? b.toJson.compact = some b.reread := by
  cases b with
  | predicate p => exact ofText?_of_predicate h hn
  | int e =>
    by_cases hcall : ∃ g es, e = .call g es
    · obtain ⟨g, es, rfl⟩ := hcall
      -- both calls are the same value
      have hjson : (IntExpr.call g es).toJson = (Predicate.call g es).toJson := by
        rw [IntExpr.toJson, Predicate.toJson]
      rw [toJson, hjson] at hn ⊢
      refine ofText?_of_predicate ?_ hn
      simpa only [Fits, IntExpr.Fits, Predicate.Fits] using h
    · have hcall : ∀ g es, e ≠ .call g es := fun g es heq => hcall ⟨g, es, heq⟩
      rw [reread_int hcall]
      exact ofText?_of_int h hn hcall

/-- Reading a body again keeps its free names. -/
theorem freeNames_reread (b : ShorthandBody) : b.reread.freeNames = b.freeNames := by
  unfold reread
  split <;> rfl

end ShorthandBody

/-! ## Calls -/

namespace Shorthands

variable {table : Shorthands} {f : String} {args : List Expr} {s : Shorthand} {c : Callee}

/-- A call of a relation with arguments that call no shorthand becomes the body. -/
theorem predicate_call {p : Predicate} (hs : table.resolve? (.relation f) = some s)
    (hbody : s.body = .predicate p) (hlength : args.length = s.params.length)
    (hargs : ∀ c ∈ Expr.calleesAll args, table.resolve? c = none) :
    table.predicate (.call f args) =
      (p.subst ⟨s.params.zip args⟩).mapError (.subst s.name) := by
  obtain ⟨q, hq, hcall⟩ := callPredicate_of_some hs
  obtain rfl : p = q := ShorthandBody.predicate.inj (hbody.symm.trans hq)
  rw [predicate, exprs_of_unresolved args hargs]
  show table.callPredicate f args = _
  rw [hcall, Shorthand.arguments_of_length hlength]
  rfl

/-- A call of a function with arguments that call no shorthand becomes the body. -/
theorem int_call {e : IntExpr} (hs : table.resolve? (.function f) = some s)
    (hbody : s.body = .int e) (hlength : args.length = s.params.length)
    (hargs : ∀ c ∈ Expr.calleesAll args, table.resolve? c = none) :
    table.int (.call f args) = (e.subst ⟨s.params.zip args⟩).mapError (.subst s.name) := by
  obtain ⟨d, hd, hcall⟩ := callInt_of_some hs
  obtain rfl : e = d := ShorthandBody.int.inj (hbody.symm.trans hd)
  rw [int, exprs_of_unresolved args hargs]
  show table.callInt f args = _
  rw [hcall, Shorthand.arguments_of_length hlength]
  rfl

/-! ## A table with one shorthand -/

/-- A call of the only shorthand finds it, if its kind answers the call. -/
theorem resolve?_singleton (hname : s.name = c.name) (hkind : s.body.answers c = true) :
    resolve? ⟨[s]⟩ c = some s := by
  refine resolve?_eq_some.mpr ⟨?_, hkind⟩
  rw [find?, List.find?_cons_of_pos (by simpa using hname)]

/-- A call of another name finds no shorthand. -/
theorem resolve?_singleton_of_ne (hname : s.name ≠ c.name) : resolve? ⟨[s]⟩ c = none := by
  rw [resolve?, find?, List.find?_cons_of_neg (by simpa using hname), List.find?_nil]
  rfl

/-- A call of another kind finds no shorthand. -/
theorem resolve?_singleton_of_kind (hkind : s.body.answers c = false) :
    resolve? ⟨[s]⟩ c = none := by
  cases h : resolve? ⟨[s]⟩ c with
  | none => rfl
  | some t =>
    obtain rfl : t = s := List.mem_singleton.mp (mem_defs_of_resolve? h)
    rw [(resolve?_eq_some.mp h).2] at hkind
    cases hkind

/-- A single definition is accepted if its parameters are identifiers and the free names of its
body, which is kept as it is read. -/
theorem define_single {params : List String} {b : ShorthandBody}
    (hidentifiers : ∀ x ∈ params, isIdentifier x = true)
    (hnames : ∀ x, x ∈ params ↔ x ∈ b.freeNames) (hfits : b.Fits)
    (hnesting : b.toJson.nesting ≤ Json.nestingLimit) :
    define [⟨f, params, b.toJson.compact⟩] = .ok ⟨[⟨f, params, b.reread⟩]⟩ := by
  have hparams : (params.find? fun x => !isIdentifier x) = none := by
    refine List.find?_eq_none.mpr fun x hx => ?_
    rw [hidentifiers x hx]
    decide
  have hsorted : sortedNames params = sortedNames b.reread.freeNames := by
    rw [b.freeNames_reread]
    exact sortedNames_congr hnames
  have hcheck : ShorthandDef.check ⟨f, params, b.toJson.compact⟩ = .ok ⟨f, params, b.reread⟩ :=
    ShorthandDef.check_mk hparams (ShorthandBody.ofText?_toJson hfits hnesting) hsorted
  -- a single definition needs no round of expansion
  rw [define, List.mapM_cons, hcheck]
  rfl

/-- A single definition by the text of a body, with the free names of the body as its parameters, is
accepted. Called with as many arguments, none of which calls it, where the body could stand, it
stands for the body with the arguments for the parameters, or for the error of this substitution.
The body may be a predicate, or an integer expression that is not a call. An integer expression that
is a call counts as the call of a relation, and is not expanded where an integer stands. -/
theorem call_of_single {params : List String} {b : ShorthandBody}
    (hidentifiers : ∀ x ∈ params, isIdentifier x = true)
    (hnames : ∀ x, x ∈ params ↔ x ∈ b.freeNames) (hfits : b.Fits)
    (hnesting : b.toJson.nesting ≤ Json.nestingLimit) :
    ∃ table, define [⟨f, params, b.toJson.compact⟩] = .ok table ∧
      ∀ args : List Expr, args.length = params.length →
        (∀ c ∈ Expr.calleesAll args, c.name ≠ f) →
        (∀ p, b = .predicate p →
          table.predicate (.call f args) =
            (p.subst ⟨params.zip args⟩).mapError (.subst f)) ∧
        (∀ e, b = .int e → (∀ g es, e ≠ .call g es) →
          table.int (.call f args) = (e.subst ⟨params.zip args⟩).mapError (.subst f)) ∧
        ∀ g es, b = .int (.call g es) →
          table.predicate (.call f args) =
            ((Predicate.call g es).subst ⟨params.zip args⟩).mapError (.subst f) ∧
          table.int (.call f args) = .ok (.call f args) := by
  refine ⟨_, define_single hidentifiers hnames hfits hnesting, fun args hlength hcalls => ?_⟩
  have hargs : ∀ c ∈ Expr.calleesAll args, resolve? ⟨[⟨f, params, b.reread⟩]⟩ c = none :=
    fun c hc => resolve?_singleton_of_ne (hcalls c hc).symm
  refine ⟨?_, ?_, ?_⟩
  · rintro p rfl
    exact predicate_call (resolve?_singleton rfl rfl) rfl hlength hargs
  · rintro e rfl hcall
    have hreread := ShorthandBody.reread_int hcall
    rw [hreread] at hargs ⊢
    exact int_call (resolve?_singleton rfl rfl) rfl hlength hargs
  · rintro g es rfl
    refine ⟨predicate_call (resolve?_singleton rfl rfl) rfl hlength hargs, ?_⟩
    -- the body is of the other kind
    refine int_of_unresolved _ (List.forall_mem_cons.mpr ⟨?_, hargs⟩)
    exact resolve?_singleton_of_kind rfl

/-- The sum of the first `n` elements of `a`, with `k` as the index. -/
def firstSum (k : String) (a : Variable) (n : IntExpr) : IntExpr :=
  .fold .sum k (.and (.comp .le (.const 0) (.name k)) (.comp .lt (.name k) n))
    (.var (.select a (.name k)))

/-- The index of the sum makes way for a name of an argument. -/
theorem firstSum_call :
    let n : IntExpr := .plus (.name "k") (.call "h" [.int (.name "k")])
    let args : List Expr := [.map (.name "b"), .int n]
    ∃ table, define [⟨"total", ["a", "n"],
        (firstSum "k" (.name "a") (.name "n")).toJson.compact⟩] = .ok table ∧
      table.int (.call "total" args) =
        .ok (firstSum "uniqueName0" (.name "b") n) := by
  intro n args
  have hfree : (firstSum "k" (.name "a") (.name "n")).freeNames = ["n", "a"] := by
    decide +kernel
  have hfits : (firstSum "k" (.name "a") (.name "n")).Fits := by
    simp [firstSum, Predicate.and, Predicate.Fits, IntExpr.Fits, IntExpr.name, Variable.Fits]
  have hidentifiers : ∀ x ∈ ["a", "n"], isIdentifier x = true :=
    List.forall_mem_cons.mpr ⟨rfl, List.forall_mem_singleton.mpr rfl⟩
  obtain ⟨table, hdefine, hcall⟩ :=
    call_of_single (f := "total") (b := .int (firstSum "k" (.name "a") (.name "n"))) hidentifiers
      (fun x => by simp [ShorthandBody.freeNames, hfree, or_comm]) hfits (by decide)
  have hcallees : ∀ c ∈ Expr.calleesAll args, c.name ≠ "total" :=
    List.forall_mem_singleton.mpr (by decide)
  obtain ⟨-, hint, -⟩ := hcall args rfl hcallees
  refine ⟨table, hdefine, (hint _ rfl (fun g es h => by cases h)).trans ?_⟩
  decide +kernel

/-- A shorthand for `g(x)` is not expanded where an integer stands: the text of the body is that of
a predicate. -/
theorem call_body_not_int :
    let body : IntExpr := .call "g" [.int (.name "x")]
    let args : List Expr := [.int (.const 3)]
    ∃ table, define [⟨"f", ["x"], body.toJson.compact⟩] = .ok table ∧
      body.freeNames = ["x"] ∧
      body.subst ⟨["x"].zip args⟩ = .ok (.call "g" args) ∧
      table.int (.call "f" args) = .ok (.call "f" args) := by
  intro body args
  have hfits : ShorthandBody.Fits (.int body) := by
    simp [body, ShorthandBody.Fits, IntExpr.Fits, Expr.FitsAll, Expr.Fits, IntExpr.name,
      Variable.Fits]
  have hidentifiers : ∀ x ∈ ["x"], isIdentifier x = true := List.forall_mem_singleton.mpr rfl
  have hdefine := define_single (f := "f") (b := .int body) hidentifiers (fun x => Iff.rfl) hfits
    (by decide)
  exact ⟨_, hdefine, rfl, by decide +kernel, rfl⟩

end Shorthands

end GuardedCommand
