import GuardedCommand.Proofs.SurfaceReading

/-! # The meaning of a formula's text

The text of a formula is read as what the formula means. The rules of reading are followed for each
kind of formula, in every place where its text may stand; since they leave no choice, formulas of
one text mean the same.

* `Predicate.sense` and its companions: what the text of a formula means. A text may mean more than
  its formula: that of `T` is also the text of a name, and that of a predicate that is called is
  also the text of a function.
* `Predicate.readable`, `IntExpr.readable`: the tokens of a formula are read as its sense, in every
  place where they may stand.
* `Predicate.reads_render`, `IntExpr.reads_render`: so is its text.
* `meaning_eq_of_render_eq`: formulas of one text have the same meaning.
-/

namespace GuardedCommand

open Surface

/-! ## Senses of formulas -/

/-- The sense of a variable's text. -/
def Variable.sense (I : Interpretation) : Variable → Sense
  | .name x => .word x
  | v => .ofValue (v.value I)

/-- The sense of an integer expression's text. -/
def IntExpr.sense (I : Interpretation) : IntExpr → Sense
  | .var v => v.sense I
  | .call f args => .call I f (Expr.valueAll I args)
  | e => .ofValue (e.value I)

/-- The sense of an expression's text. -/
def Expr.sense (I : Interpretation) : Expr → Sense
  | .map v => v.sense I
  | .int e => e.sense I

/-- The sense of a predicate's text. -/
def Predicate.sense (I : Interpretation) : Predicate → Sense
  | .const b => .word (if b then "T" else "F")
  | .call f args => .call I f (Expr.valueAll I args)
  | .perm a b n => .call I "perm" fun s => [a.value I s, b.value I s, n.value I s]
  | p => .ofTruth (p.Holds I)

variable {I : Interpretation}

/-- The sense of a variable has its value. -/
@[simp] theorem Variable.value_sense (v : Variable) : (v.sense I).value = v.value I := by
  cases v with
  | name x =>
    funext s
    rw [Variable.value]
    rfl
  | select b i => rfl
  | store b i e => rfl

/-- The sense of an integer expression has its value. -/
@[simp] theorem IntExpr.value_sense (e : IntExpr) : (e.sense I).value = e.value I := by
  cases e with
  | var v =>
    funext s
    rw [IntExpr.value, ← v.value_sense]
    rfl
  | call f args =>
    funext s
    rw [IntExpr.value]
    rfl
  | _ => rfl

/-- The sense of an expression has its value. -/
@[simp] theorem Expr.value_sense (e : Expr) : (e.sense I).value = e.value I := by
  funext s
  cases e with
  | map v => rw [Expr.value, ← v.value_sense, Expr.sense]
  | int e => rw [Expr.value, ← e.value_sense, Expr.sense]

/-- A relation of another name than `perm` is the interpreted one. -/
theorem Surface.Sense.relation_of_ne {f : String} (hf : f ≠ "perm") (vs : List Value) :
    Sense.relation I f vs = I.relation f vs := by
  unfold Sense.relation
  split
  · exact absurd rfl hf
  · rfl

/-- The sense of a legible predicate holds where the predicate does. -/
theorem Predicate.holds_sense {p : Predicate} (h : p.Legible) : (p.sense I).Holds = p.Holds I := by
  funext s
  cases p with
  | const b => cases b <;> simp [Predicate.sense, Sense.word, Predicate.Holds]
  | call f args =>
    rw [Predicate.Legible] at h
    rw [Predicate.Holds, ← Sense.relation_of_ne h.2.1]
    rfl
  | perm a b n =>
    rw [Predicate.Holds]
    rfl
  | _ => rfl

/-! ## Senses of composite formulas -/

/-- The sense of an element. -/
theorem Variable.sense_select (b : Variable) (i : IntExpr) :
    (Variable.select b i).sense I = (b.sense I).select (i.sense I) := by
  refine Sense.ext (funext fun s => ?_) rfl
  show (Variable.select b i).value I s = ((b.sense I).value s).get ((i.sense I).value s).toInt
  rw [Variable.value, b.value_sense, i.value_sense]

/-- The sense of a map with a stored element. -/
theorem Variable.sense_store (b : Variable) (i : IntExpr) (e : Expr) :
    (Variable.store b i e).sense I = (b.sense I).store (i.sense I) (e.sense I) := by
  refine Sense.ext (funext fun s => ?_) rfl
  show (Variable.store b i e).value I s =
    ((b.sense I).value s).set ((i.sense I).value s).toInt ((e.sense I).value s)
  rw [Variable.value, b.value_sense, i.value_sense, e.value_sense]

/-- The sense of a negated integer expression. -/
theorem IntExpr.sense_negate (e : IntExpr) : (IntExpr.negate e).sense I = (e.sense I).minus := by
  refine Sense.ext (funext fun s => ?_) rfl
  show (IntExpr.negate e).value I s = .int (-((e.sense I).value s).toInt)
  rw [IntExpr.value, e.value_sense]

/-- The sense of an operator on integers. -/
theorem IntExpr.sense_binary (op : ArithOp) (l r : IntExpr) :
    (IntExpr.binary op l r).sense I = (Sign.arith op).join (l.sense I) (r.sense I) := by
  refine Sense.ext (funext fun s => ?_) rfl
  show (IntExpr.binary op l r).value I s =
    .int (op.apply ((l.sense I).value s).toInt ((r.sense I).value s).toInt)
  rw [IntExpr.value, l.value_sense, r.value_sense]

/-- The sense of an aggregate. -/
theorem IntExpr.sense_fold {c : Predicate} (hc : c.Legible) (op : Aggregate) (k : String)
    (e : IntExpr) :
    (IntExpr.fold op k c e).sense I = .binder I op.keyword k (c.sense I) (e.sense I) := by
  unfold Sense.binder
  rw [Predicate.holds_sense hc, e.value_sense]
  refine Sense.ext (funext fun s => ?_) ?_
  · rw [IntExpr.value_sense, IntExpr.value]
    cases op <;> rfl
  · cases op <;> rfl

/-- The sense of a number of indices. -/
theorem IntExpr.sense_count {c p : Predicate} (hc : c.Legible) (hp : p.Legible) (k : String) :
    (IntExpr.count k c p).sense I = .binder I countKeyword k (c.sense I) (p.sense I) := by
  unfold Sense.binder
  rw [Predicate.holds_sense hc, Predicate.holds_sense hp]
  refine Sense.ext (funext fun s => ?_) rfl
  rw [IntExpr.value_sense, IntExpr.value]
  rfl

/-- The sense of a negation. -/
theorem Predicate.sense_not {p : Predicate} (h : p.Legible) :
    (Predicate.not p).sense I = (p.sense I).not := by
  refine Sense.ext rfl (funext fun s => ?_)
  show (Predicate.not p).Holds I s = ¬ (p.sense I).Holds s
  rw [Predicate.Holds, Predicate.holds_sense h]

/-- The sense of a connective. -/
theorem Predicate.sense_binary {l r : Predicate} (hl : l.Legible) (hr : r.Legible) (op : BoolOp) :
    (Predicate.binary op l r).sense I = (Sign.bool op).join (l.sense I) (r.sense I) := by
  refine Sense.ext rfl (funext fun s => ?_)
  show (Predicate.binary op l r).Holds I s = op.Joins ((l.sense I).Holds s) ((r.sense I).Holds s)
  rw [Predicate.Holds, Predicate.holds_sense hl, Predicate.holds_sense hr]

/-- The sense of a comparison. -/
theorem Predicate.sense_comp (op : CompOp) (l r : IntExpr) :
    (Predicate.comp op l r).sense I = (Sign.comp op).join (l.sense I) (r.sense I) := by
  refine Sense.ext rfl (funext fun s => ?_)
  show (Predicate.comp op l r).Holds I s =
    op.Compares ((l.sense I).value s).toInt ((r.sense I).value s).toInt
  rw [Predicate.Holds, l.value_sense, r.value_sense]

/-- The sense of a quantifier. -/
theorem Predicate.sense_quant {c p : Predicate} (hc : c.Legible) (hp : p.Legible) (q : Quantifier)
    (k : String) :
    (Predicate.quant q k c p).sense I = .binder I q.keyword k (c.sense I) (p.sense I) := by
  unfold Sense.binder
  rw [Predicate.holds_sense hc, Predicate.holds_sense hp]
  refine Sense.ext ?_ (funext fun s => ?_)
  · cases q <;> rfl
  · show (Predicate.quant q k c p).Holds I s = _
    rw [Predicate.Holds]
    cases q <;> rfl

/-! ## Formulas are read as they are meant -/

/-- An integer is an operand, with or without parentheses. -/
theorem Surface.Reads.numeral (c : Int) (needed : Bool) (rest : List Token) :
    Reads I .operand (enclosed needed (numeral c) ++ rest) (.ofValue fun _ => .int c) rest := by
  have hbare : ∀ rest,
      Reads I .operand (Surface.numeral c ++ rest) (.ofValue fun _ => .int c) rest := by
    intro rest
    cases c with
    | ofNat n => exact .number
    | negSucc n => exact .minus .number
  cases needed with
  | false => exact hbare rest
  | true =>
    have hcloses : Closes (.closing :: rest) := closes_cons (by decide) rest
    have hclosed := Reads.formula (hbare (.closing :: rest)) (.stop hcloses.2)
    rw [enclosed, if_pos rfl, List.cons_append, List.append_assoc]
    exact hclosed.parens

/-- A binder is an operand. -/
theorem Surface.Readable.binder {truth truth' : Bool} {condition inner : Prec → List Token}
    {c d : Sense} (hc : Readable I truth condition c) (hd : Readable I truth' inner d)
    (keyword k : String) (rest : List Token) :
    Reads I .operand (binderTokens keyword k (condition .lowest) (inner .lowest) ++ rest)
      (.binder I keyword k c d) rest := by
  have hinner := hd.whole (closes_cons (t := .closing) (by decide) rest)
  have hcondition := hc.whole
    (closes_cons (t := .colon) (by decide) (inner .lowest ++ .closing :: rest))
  simp only [binderTokens, List.cons_append, List.append_assoc, List.nil_append]
  exact .binder hcondition hinner

/-- Before further arguments, and after the last one, an argument ends. -/
theorem Expr.closes_tokensMore (es : List Expr) (rest : List Token) :
    Closes (Expr.tokensMore es ++ .closing :: rest) := by
  cases es with
  | nil =>
    rw [Expr.tokensMore]
    exact closes_cons (by decide) rest
  | cons e es =>
    rw [Expr.tokensMore]
    exact closes_cons (by decide) _

mutual

/-- A variable is read together with the selectors after it. -/
theorem Variable.reads : ∀ v : Variable, v.Legible → ∀ {rest rest' : List Token} {d : Sense},
    rest.head? ≠ some .opening → Reads I (.selectors (v.sense I)) rest d rest' →
      Reads I .operand (v.tokens ++ rest) d rest'
  | .name x, _, rest, rest', d, hbare, hselectors => by
    rw [Variable.tokens]
    exact .word hbare hselectors
  | .select b i, h, rest, rest', d, _, hselectors => by
    rw [Variable.Legible] at h
    have hi := (i.readable h.2).whole (closes_cons (t := .rightBracket) (by decide) rest)
    rw [Variable.sense_select] at hselectors
    rw [Variable.tokens, List.append_assoc, List.cons_append, List.append_assoc]
    exact b.reads h.1 (by simp) (.selected hi hselectors)
  | .store b i e, h, rest, rest', d, _, hselectors => by
    rw [Variable.Legible] at h
    have he := (e.readable h.2.2).operand (q := .primary) (by decide)
      (closes_cons (t := .closing) (by decide) rest).1
    have hi := (i.readable h.2.1).operand (q := .primary) (by decide)
      (closes_cons (t := .colon) (by decide) (e.tokens .primary ++ .closing :: rest)).1
    rw [Variable.sense_store] at hselectors
    simp only [Variable.tokens, List.append_assoc, List.cons_append, List.nil_append]
    exact .group (b.reads h.1 (by simp) (.unselected (by simp))) (.store hi he hselectors)

/-- An expression of either kind can be read. -/
theorem Expr.readable : ∀ e : Expr, e.Legible → Readable I false e.tokens (e.sense I)
  | .map v, h => by
    rw [Expr.Legible] at h
    have htokens : (Expr.map v).tokens = fun _ => v.tokens := by
      funext q
      rw [Expr.tokens]
    rw [htokens]
    exact .of_selectors (v.reads h)
  | .int e, h => by
    rw [Expr.Legible] at h
    have htokens : (Expr.int e).tokens = e.tokens := by
      funext q
      rw [Expr.tokens]
    rw [htokens]
    exact e.readable h

/-- An integer expression can be read. -/
theorem IntExpr.readable : ∀ e : IntExpr, e.Legible → Readable I false e.tokens (e.sense I)
  | .const c, _ => by
    have hsense : (IntExpr.const c).sense I = .ofValue fun _ => .int c := by
      refine Sense.ext (funext fun s => ?_) rfl
      rw [IntExpr.value_sense, IntExpr.value]
      rfl
    refine .of_operand fun q rest _ => ?_
    rw [IntExpr.tokens, hsense]
    exact .numeral c _ rest
  | .var v, h => by
    rw [IntExpr.Legible] at h
    have htokens : (IntExpr.var v).tokens = fun _ => v.tokens := by
      funext q
      rw [IntExpr.tokens]
    rw [htokens]
    exact .of_selectors (v.reads h)
  | .negate e, h => by
    rw [IntExpr.Legible] at h
    refine .of_operand fun q rest hends => ?_
    rw [IntExpr.tokens, IntExpr.sense_negate]
    -- What is negated binds as tightly as an operand, so no sign behind it is taken in.
    exact .minus ((e.readable h).operand (by decide) hends)
  | .binary op l r, h => by
    rw [IntExpr.Legible] at h
    have htokens : (IntExpr.binary op l r).tokens = (Sign.arith op).between l.tokens r.tokens := by
      funext q
      rw [IntExpr.tokens]
    rw [htokens, IntExpr.sense_binary]
    exact .between (.arith op) (l.readable h.1) (r.readable h.2)
  | .call f args, h => by
    rw [IntExpr.Legible] at h
    refine .of_operand fun q rest _ => ?_
    rw [IntExpr.tokens]
    exact Expr.reads_call f args h.2.2
  | .fold op k c e, h => by
    rw [IntExpr.Legible] at h
    refine .of_operand fun q rest _ => ?_
    rw [IntExpr.tokens, IntExpr.sense_fold h.2.1]
    exact (c.readable h.2.1).binder (e.readable h.2.2) op.keyword k rest
  | .count k c p, h => by
    rw [IntExpr.Legible] at h
    refine .of_operand fun q rest _ => ?_
    rw [IntExpr.tokens, IntExpr.sense_count h.2.1 h.2.2]
    exact (c.readable h.2.1).binder (p.readable h.2.2) countKeyword k rest

/-- A predicate can be read. -/
theorem Predicate.readable : ∀ p : Predicate, p.Legible → Readable I true p.tokens (p.sense I)
  | .const b, _ => by
    refine .of_operand fun q rest hends => ?_
    cases b with
    | false =>
      rw [Predicate.tokens]
      exact .word hends.1 (.unselected hends.2)
    | true =>
      rw [Predicate.tokens]
      exact .word hends.1 (.unselected hends.2)
  | .not p, h => by
    rw [Predicate.Legible] at h
    refine .of_operand fun q rest hends => ?_
    rw [Predicate.tokens, Predicate.sense_not h]
    exact .not ((p.readable h).operand (by decide) hends)
  | .binary op l r, h => by
    rw [Predicate.Legible] at h
    have htokens : (Predicate.binary op l r).tokens = (Sign.bool op).between l.tokens r.tokens := by
      funext q
      rw [Predicate.tokens]
    rw [htokens, Predicate.sense_binary h.1 h.2]
    exact .between (.bool op) (l.readable h.1) (r.readable h.2)
  | .comp op l r, h => by
    rw [Predicate.Legible] at h
    have htokens : (Predicate.comp op l r).tokens = (Sign.comp op).between l.tokens r.tokens := by
      funext q
      rw [Predicate.tokens]
    rw [htokens, Predicate.sense_comp]
    exact .between (.comp op) (l.readable h.1) (r.readable h.2)
  | .call f args, h => by
    rw [Predicate.Legible] at h
    refine .of_operand fun q rest _ => ?_
    rw [Predicate.tokens]
    exact Expr.reads_call f args h.2.2
  | .perm a b n, h => by
    rw [Predicate.Legible] at h
    have hsense : (Predicate.perm a b n).sense I = .call I "perm" fun s =>
        [(a.sense I).value s, (b.sense I).value s, (n.sense I).value s] := by
      rw [a.value_sense, b.value_sense, n.value_sense]
      rfl
    refine .of_operand fun q rest _ => ?_
    -- Each argument is read up to the comma or the parenthesis behind it.
    have hn := (n.readable h.2.2).whole (closes_cons (t := .closing) (by decide) rest)
    have hb := (Readable.of_selectors (b.reads h.2.1)).whole
      (closes_cons (t := .comma) (by decide) (n.tokens .lowest ++ .closing :: rest))
    have ha := (Readable.of_selectors (a.reads h.1)).whole (closes_cons (t := .comma) (by decide)
      (b.tokens ++ .comma :: (n.tokens .lowest ++ .closing :: rest)))
    simp only [Predicate.tokens, hsense, callTokens, List.cons_append, List.append_assoc,
      List.nil_append]
    exact .call (.arguments ha (.moreArguments hb (.moreArguments hn .lastArgument)))
  | .quant q k c p, h => by
    rw [Predicate.Legible] at h
    refine .of_operand fun _ rest _ => ?_
    rw [Predicate.tokens, Predicate.sense_quant h.2.1 h.2.2]
    exact (c.readable h.2.1).binder (p.readable h.2.2) q.keyword k rest

/-- The tokens of a call are read as the call. -/
theorem Expr.reads_call (f : String) : ∀ es : List Expr, Expr.LegibleAll es →
    ∀ {rest : List Token}, Reads I .operand (callTokens f (Expr.tokensAll es) ++ rest)
      (.call I f (Expr.valueAll I es)) rest
  | [], _, rest => by
    have hvalues : Expr.valueAll I [] = fun _ => [] := by
      funext s
      rw [Expr.valueAll]
    rw [callTokens, Expr.tokensAll, hvalues]
    exact .call .noArguments
  | e :: es, h, rest => by
    rw [Expr.LegibleAll] at h
    have hvalues : Expr.valueAll I (e :: es) =
        fun s => [(e.sense I).value s] ++ Expr.valueAll I es s := by
      funext s
      rw [Expr.valueAll, e.value_sense, List.singleton_append]
    have he := (e.readable h.1).whole (Expr.closes_tokensMore es rest)
    simp only [callTokens, Expr.tokensAll, hvalues, List.cons_append, List.append_assoc,
      List.nil_append]
    exact .call (.arguments he (Expr.reads_more f es h.2))

/-- The arguments after some are read after those. -/
theorem Expr.reads_more (f : String) : ∀ es : List Expr, Expr.LegibleAll es →
    ∀ {done : State → List Value} {rest : List Token},
      Reads I (.more f done) (Expr.tokensMore es ++ .closing :: rest)
        (.call I f fun s => done s ++ Expr.valueAll I es s) rest
  | [], _, done, rest => by
    have hvalues : (fun s => done s ++ Expr.valueAll I [] s) = done := by
      funext s
      rw [Expr.valueAll, List.append_nil]
    rw [Expr.tokensMore, hvalues]
    exact .lastArgument
  | e :: es, h, done, rest => by
    rw [Expr.LegibleAll] at h
    have hvalues : (fun s => done s ++ Expr.valueAll I (e :: es) s) =
        fun s => (done s ++ [(e.sense I).value s]) ++ Expr.valueAll I es s := by
      funext s
      rw [Expr.valueAll, e.value_sense, List.append_assoc, List.singleton_append]
    have he := (e.readable h.1).whole (Expr.closes_tokensMore es rest)
    rw [Expr.tokensMore, hvalues, List.cons_append, List.append_assoc]
    exact .moreArguments he (Expr.reads_more f es h.2)

end

/-- The text of a predicate is read as the predicate. -/
theorem Predicate.reads_render {p : Predicate} (h : p.Legible) :
    Reads I (.formula 0) (scan p.render.toList []) (p.sense I) [] := by
  rw [Predicate.scan_render h]
  simpa using (p.readable h).whole closes_nil

/-- The text of an integer expression is read as the expression. -/
theorem IntExpr.reads_render {e : IntExpr} (h : e.Legible) :
    Reads I (.formula 0) (scan e.render.toList []) (e.sense I) [] := by
  rw [IntExpr.scan_render h]
  simpa using (e.readable h).whole closes_nil

/-- Predicates of one text hold in the same states, and integer expressions of one text have the
same value. -/
theorem meaning_eq_of_render_eq (I : Interpretation) (s : State) :
    (∀ p q : Predicate, p.Legible → q.Legible → p.render = q.render →
      (p.Holds I s ↔ q.Holds I s)) ∧
    ∀ d e : IntExpr, d.Legible → e.Legible → d.render = e.render → d.value I s = e.value I s := by
  constructor
  · intro p q hp hq hrender
    have hreads : Reads I (.formula 0) (scan p.render.toList []) (q.sense I) [] := by
      rw [hrender]
      exact Predicate.reads_render hq
    have hsense : p.sense I = q.sense I := ((Predicate.reads_render hp).unique hreads).1
    rw [← Predicate.holds_sense hp, ← Predicate.holds_sense hq, hsense]
  · intro d e hd he hrender
    have hreads : Reads I (.formula 0) (scan d.render.toList []) (e.sense I) [] := by
      rw [hrender]
      exact IntExpr.reads_render he
    have hsense : d.sense I = e.sense I := ((IntExpr.reads_render hd).unique hreads).1
    rw [← d.value_sense, ← e.value_sense, hsense]

/-- The predicate `-3 < x && sorted(a) && T`, grouped to the right, or to the left with the minus
and the argument as other trees. -/
def conjoined (left : Bool) : Predicate :=
  if left then
    .and (.and (.comp .lt (.negate (.const 3)) (.name "x")) (.call "sorted" [.int (.name "a")]))
      (.const true)
  else
    .and (.comp .lt (.const (-3)) (.name "x")) (.and (.call "sorted" [.map (.name "a")])
      (.const true))

/-- The expression `x + (a; -i:3)[0] - y`, grouped to either side. -/
def summed (left : Bool) : IntExpr :=
  let stored : IntExpr := .var (.select (.store (.name "a") (.negate (.name "i")) (.int (.const 3)))
    (.const 0))
  if left then .minus (.plus (.name "x") stored) (.name "y")
  else .plus (.name "x") (.minus stored (.name "y"))

/-- Both groupings have one text and mean the same. -/
theorem groupings_meaning :
    ((conjoined true).Legible ∧ (conjoined false).Legible ∧
      (conjoined true).render = "-3 < x && sorted(a) && T" ∧
      (conjoined false).render = "-3 < x && sorted(a) && T" ∧
      ∀ I s, (conjoined true).Holds I s ↔ (conjoined false).Holds I s) ∧
    (summed true).Legible ∧ (summed false).Legible ∧
      (summed true).render = "x + (a; -i:3)[0] - y" ∧
      (summed false).render = "x + (a; -i:3)[0] - y" ∧
      ∀ I s, (summed true).value I s = (summed false).value I s := by
  have hnames : ∀ x ∈ ["x", "y", "i", "a", "sorted"], isIdentifier x = true := by decide
  have hconjoined : ∀ left, (conjoined left).Legible := by
    intro left
    cases left <;> simp [conjoined, Predicate.and, Predicate.Legible, IntExpr.Legible, IntExpr.name,
      Variable.Legible, Expr.LegibleAll, Expr.Legible, hnames]
  have hsummed : ∀ left, (summed left).Legible := by
    intro left
    cases left <;> simp [summed, IntExpr.plus, IntExpr.minus, IntExpr.Legible, IntExpr.name,
      Variable.Legible, Expr.Legible, hnames]
  have hp : ∀ left, (conjoined left).render = "-3 < x && sorted(a) && T" := by
    intro left
    cases left <;> cbv
  have he : ∀ left, (summed left).render = "x + (a; -i:3)[0] - y" := by
    intro left
    cases left <;> cbv
  refine ⟨⟨hconjoined true, hconjoined false, hp true, hp false, fun I s => ?_⟩,
    hsummed true, hsummed false, he true, he false, fun I s => ?_⟩
  · exact (meaning_eq_of_render_eq I s).1 _ _ (hconjoined true) (hconjoined false)
      ((hp true).trans (hp false).symm)
  · exact (meaning_eq_of_render_eq I s).2 _ _ (hsummed true) (hsummed false)
      ((he true).trans (he false).symm)

end GuardedCommand
