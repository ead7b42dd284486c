import GuardedCommand.Proofs.SurfaceTokens

/-! # Reading the text of a formula

The text of a formula is read by the rules of its notation, without the formula. What is read is a
meaning and not a tree: texts leave open how equal signs are grouped, and whether `-3` is a number
or the negation of one, and none of this matters for the meaning.

* `Surface.Sense`: what a text means, both as a predicate and as an integer expression.
* `Surface.Reads`: the rules, one for each way in which a text goes on. An operand is read first,
  and then the signs after it as long as they bind tightly enough.
* `Surface.Reads.unique`: the tokens determine what is read.
* `Surface.Readable`: tokens are read as a given sense, in every place where they may stand. There
  is one lemma for operands and one for signs.
-/

namespace GuardedCommand

namespace Surface

/-! ## Senses -/

/-- What a text means in each state: a value if it stands for one, and whether it holds if it is a
predicate. -/
@[ext]
structure Sense where
  /-- The value. -/
  value : State → Value
  /-- Whether it holds. -/
  Holds : State → Prop

namespace Sense

/-- The sense of what only has a value. -/
def ofValue (f : State → Value) : Sense := ⟨f, fun _ => False⟩

/-- The sense of what only holds or not. -/
def ofTruth (p : State → Prop) : Sense := ⟨fun _ => .int 0, p⟩

/-- The sense of a word: the value of a name, or a truth value. -/
def word (x : String) : Sense := ⟨fun s => s x, fun _ => x = "T"⟩

/-- The sense of a minus before an operand. -/
def minus (d : Sense) : Sense := .ofValue fun s => .int (-(d.value s).toInt)

/-- The sense of a tilde before an operand. -/
def not (d : Sense) : Sense := .ofTruth fun s => ¬ d.Holds s

/-- The sense of an element. -/
def select (b i : Sense) : Sense := .ofValue fun s => (b.value s).get (i.value s).toInt

/-- The sense of a map that differs at one index. -/
def store (b i e : Sense) : Sense :=
  .ofValue fun s => (b.value s).set (i.value s).toInt (e.value s)

/-- Whether a called relation holds. The name `perm` is taken. -/
def relation (I : Interpretation) : String → List Value → Prop
  | "perm", [a, b, n] => (b.firstElements n.toInt).Perm (a.firstElements n.toInt)
  | f, vs => I.relation f vs

/-- The sense of a call with some arguments. -/
def call (I : Interpretation) (f : String) (args : State → List Value) : Sense :=
  ⟨fun s => I.function f (args s), fun s => relation I f (args s)⟩

/-- The sense of a binder, which its word determines. -/
def binder (I : Interpretation) (keyword k : String) (condition inner : Sense) : Sense :=
  let bound (s : State) (n : Int) : State := Function.update s k (.int n)
  match keyword with
  | "A" => .ofTruth fun s =>
    Quantifier.all.Ranges (fun n => condition.Holds (bound s n)) fun n => inner.Holds (bound s n)
  | "E" => .ofTruth fun s =>
    Quantifier.some.Ranges (fun n => condition.Holds (bound s n)) fun n => inner.Holds (bound s n)
  | "SUM" => .ofValue fun s =>
    .int (I.fold .sum (fun n => condition.Holds (bound s n)) fun n =>
      (inner.value (bound s n)).toInt)
  | "PROD" => .ofValue fun s =>
    .int (I.fold .prod (fun n => condition.Holds (bound s n)) fun n =>
      (inner.value (bound s n)).toInt)
  | "N" => .ofValue fun s =>
    .int (I.count (fun n => condition.Holds (bound s n)) fun n => inner.Holds (bound s n))
  | _ => .ofTruth fun _ => False

end Sense

namespace Sign

/-- The sense of two operands with a sign between them. -/
def join : Sign → Sense → Sense → Sense
  | .bool op, l, r => .ofTruth fun s => op.Joins (l.Holds s) (r.Holds s)
  | .comp op, l, r => .ofTruth fun s => op.Compares (l.value s).toInt (r.value s).toInt
  | .arith op, l, r => .ofValue fun s => .int (op.apply (l.value s).toInt (r.value s).toInt)

/-- How tightly a sign binds, as a number. -/
def rank (op : Sign) : Nat := op.prec.rank

/-- How tightly the signs in a right operand bind at least. The operand of an implication or an
equivalence takes in all further signs of that kind, that of any other sign does not. -/
def rightRank : Sign → Nat
  | .bool .implies => rank (.bool .implies)
  | .bool .iff => rank (.bool .iff)
  | op => op.rank + 1

/-- Whether the operands of a sign are predicates. -/
def joinsTruths : Sign → Bool
  | .bool _ => true
  | _ => false

/-- Whether a sign makes a predicate of its operands. -/
def makesTruth : Sign → Bool
  | .arith _ => false
  | _ => true

/-- Whether `a op' (b op c)` is shown without parentheses and read as `(a op' b) op c`. -/
def regroups : Sign → Sign → Bool
  | .bool .and, .bool .and => true
  | .bool .or, .bool .or => true
  | .arith .plus, .arith .plus => true
  | .arith .plus, .arith .minus => true
  | _, _ => false

variable {op op' : Sign}

/-- There are eight ranks of operators. -/
theorem rank_lt (op : Sign) : op.rank < 8 := by
  rcases op with op | op | op <;> cases op <;> decide

/-- The right operand of an operator binds at least as strongly as the operator. -/
theorem rank_le_rightRank (op : Sign) : op.rank ≤ op.rightRank := by
  rcases op with op | op | op <;> cases op <;> decide

/-- A sign that stands bare binds at least as tightly as its place, and its right operand ends
before the signs of that place. -/
theorem rank_le_of_isBracketed {q : Prec} (h : op.isBracketed q = false) :
    q.rank ≤ op.rank ∧ q.rank + 1 ≤ op.rightRank := by
  revert h
  rcases op with op | op | op <;> cases op <;> cases q <;> decide

/-- A sign that stands bare in a right operand belongs to the operand, or it can be regrouped. -/
theorem rightRank_le_or_regroups (hkind : op'.joinsTruths = op.makesTruth)
    (h : op.isBracketed op'.rightPrec = false) : op'.rightRank ≤ op.rank ∨ op'.regroups op := by
  revert hkind h
  rcases op' with op' | op' | op' <;> cases op' <;> rcases op with op | op | op <;> cases op <;>
    decide

/-- Signs that can be regrouped bind equally tightly and stand between the same operands. -/
theorem eq_of_regroups (h : op'.regroups op = true) : op'.rightPrec = op.prec ∧
    op'.rank = op.rank ∧ op'.rightRank = op.rank + 1 ∧ op.rightRank = op.rank + 1 ∧
      op'.joinsTruths = op.joinsTruths := by
  revert h
  rcases op' with op' | op' | op' <;> cases op' <;> rcases op with op | op | op <;> cases op <;>
    decide

/-- Regrouping does not change the sense. -/
theorem join_join_of_regroups (h : op'.regroups op = true) (a b c : Sense) :
    op.join (op'.join a b) c = op'.join a (op.join b c) := by
  unfold regroups at h
  split at h
  · exact Sense.ext rfl (funext fun _ => propext and_assoc)
  · exact Sense.ext rfl (funext fun _ => propext or_assoc)
  · exact Sense.ext (funext fun _ => congrArg Value.int (Int.add_assoc _ _ _)) rfl
  · exact Sense.ext (funext fun _ => congrArg Value.int (Int.add_sub_assoc _ _ _)) rfl
  · cases h

end Sign

/-! ## The rules of reading -/

/-- What is to be read next. -/
inductive Job where
  /-- An operand. -/
  | operand
  /-- An operand and the signs after it that bind at least as tightly as `m`. -/
  | formula (m : Nat)
  /-- Further signs that bind at least as tightly as `m`, after `left`. -/
  | signs (m : Nat) (left : Sense)
  /-- The selectors of `base`. -/
  | selectors (base : Sense)
  /-- What follows the first operand after an opening parenthesis. -/
  | group (first : Sense)
  /-- The arguments of a call. -/
  | arguments (f : String)
  /-- The arguments of a call after some that are `done`. -/
  | more (f : String) (done : State → List Value)

/-- If a sign comes next, it binds less tightly than `m`. -/
def Below (m : Nat) (rest : List Token) : Prop :=
  ∀ op, rest.head? = some (.sign op) → op.rank < m

/-- Tokens are read as a sense, and others are left. -/
inductive Reads (I : Interpretation) : Job → List Token → Sense → List Token → Prop where
  /-- A number. -/
  | number {n : Nat} {rest : List Token} :
    Reads I .operand (.number n :: rest) (.ofValue fun _ => .int n) rest
  /-- A minus before an operand. -/
  | minus {ts rest : List Token} {d : Sense} (operand : Reads I .operand ts d rest) :
    Reads I .operand (.sign (.arith .minus) :: ts) d.minus rest
  /-- A tilde before an operand. -/
  | not {ts rest : List Token} {d : Sense} (operand : Reads I .operand ts d rest) :
    Reads I .operand (.tilde :: ts) d.not rest
  /-- A word that is not called, with its selectors. -/
  | word {x : String} {ts rest : List Token} {d : Sense} (bare : ts.head? ≠ some .opening)
    (selectors : Reads I (.selectors (.word x)) ts d rest) :
    Reads I .operand (.word x :: ts) d rest
  /-- A word that is called. -/
  | call {f : String} {ts rest : List Token} {d : Sense}
    (arguments : Reads I (.arguments f) ts d rest) :
    Reads I .operand (.word f :: .opening :: ts) d rest
  /-- A parenthesis, which encloses a formula or a store. -/
  | group {ts ts' rest : List Token} {x d : Sense} (first : Reads I .operand ts x ts')
    (group : Reads I (.group x) ts' d rest) : Reads I .operand (.opening :: ts) d rest
  /-- A parenthesis before two words, which encloses a binder. -/
  | binder {w k : String} {ts ts' rest : List Token} {c d : Sense}
    (condition : Reads I (.formula 0) ts c (.colon :: ts'))
    (inner : Reads I (.formula 0) ts' d (.closing :: rest)) :
    Reads I .operand (.opening :: .word w :: .word k :: .colon :: ts) (.binder I w k c d) rest
  /-- An operand with the signs after it. -/
  | formula {m : Nat} {ts ts' rest : List Token} {x d : Sense} (operand : Reads I .operand ts x ts')
    (signs : Reads I (.signs m x) ts' d rest) : Reads I (.formula m) ts d rest
  /-- No further sign binds tightly enough. -/
  | stop {m : Nat} {rest : List Token} {d : Sense} (below : Below m rest) :
    Reads I (.signs m d) rest d rest
  /-- A sign that binds tightly enough is read with its right operand. -/
  | sign {m : Nat} {op : Sign} {ts ts' rest : List Token} {left x d : Sense} (tight : m ≤ op.rank)
    (right : Reads I (.formula op.rightRank) ts x ts')
    (signs : Reads I (.signs m (op.join left x)) ts' d rest) :
    Reads I (.signs m left) (.sign op :: ts) d rest
  /-- There are no further selectors. -/
  | unselected {rest : List Token} {d : Sense} (bare : rest.head? ≠ some .leftBracket) :
    Reads I (.selectors d) rest d rest
  /-- A selector in brackets. -/
  | selected {ts ts' rest : List Token} {b i d : Sense}
    (selector : Reads I (.formula 0) ts i (.rightBracket :: ts'))
    (selectors : Reads I (.selectors (b.select i)) ts' d rest) :
    Reads I (.selectors b) (.leftBracket :: ts) d rest
  /-- After a semicolon come the index and the value of a store, and its selectors. -/
  | store {ts ts' ts'' rest : List Token} {b i e d : Sense}
    (selector : Reads I .operand ts i (.colon :: ts'))
    (value : Reads I .operand ts' e (.closing :: ts''))
    (selectors : Reads I (.selectors (b.store i e)) ts'' d rest) :
    Reads I (.group b) (.semicolon :: ts) d rest
  /-- Otherwise come the signs of the formula and the closing parenthesis. -/
  | close {ts rest : List Token} {x d : Sense}
    (signs : Reads I (.signs 0 x) ts d (.closing :: rest)) : Reads I (.group x) ts d rest
  /-- A call without arguments. -/
  | noArguments {f : String} {rest : List Token} :
    Reads I (.arguments f) (.closing :: rest) (.call I f fun _ => []) rest
  /-- The first argument. -/
  | arguments {f : String} {ts ts' rest : List Token} {x d : Sense}
    (first : Reads I (.formula 0) ts x ts')
    (more : Reads I (.more f fun s => [x.value s]) ts' d rest) : Reads I (.arguments f) ts d rest
  /-- A further argument, after a comma. -/
  | moreArguments {f : String} {done : State → List Value} {ts ts' rest : List Token} {x d : Sense}
    (next : Reads I (.formula 0) ts x ts')
    (more : Reads I (.more f fun s => done s ++ [x.value s]) ts' d rest) :
    Reads I (.more f done) (.comma :: ts) d rest
  /-- The end of the arguments. -/
  | lastArgument {f : String} {done : State → List Value} {rest : List Token} :
    Reads I (.more f done) (.closing :: rest) (.call I f done) rest

namespace Reads

variable {I : Interpretation} {j : Job} {ts rest rest' : List Token} {d d' x : Sense}

/-- Before anything but a sign there are no signs to read. -/
theorem eq_of_signs {t : Token} (ht : ∀ op, t ≠ .sign op) {m : Nat}
    (h : Reads I (.signs m x) (t :: ts) d rest) : d = x ∧ rest = t :: ts := by
  cases h with
  | stop => exact ⟨rfl, rfl⟩
  | sign => exact absurd rfl (ht _)

/-- The first operand of a group is not followed by a word. -/
theorem not_group_word {k : String} : ¬ Reads I (.group x) (.word k :: ts) d rest := by
  intro h
  cases h with
  | close signs => cases (signs.eq_of_signs (by simp)).2

/-- After an opening, two words belong to a binder. -/
theorem not_group_words {w k : String} {ts' : List Token}
    (first : Reads I .operand (.word w :: .word k :: ts) x ts') :
    ¬ Reads I (.group x) ts' d rest := by
  cases first with
  | word _ selectors =>
    cases selectors with
    | unselected => exact not_group_word

/-- What is read and what is left are determined by the tokens. -/
theorem unique (h : Reads I j ts d rest) (h' : Reads I j ts d' rest') :
    d = d' ∧ rest = rest' := by
  -- two rules for one job differ in the tokens that come next, or one of them gets stuck later
  induction h generalizing d' rest' with
  | number =>
    cases h'
    exact ⟨rfl, rfl⟩
  | minus _ ih =>
    cases h' with
    | minus operand =>
      obtain ⟨rfl, rfl⟩ := ih operand
      exact ⟨rfl, rfl⟩
  | not _ ih =>
    cases h' with
    | not operand =>
      obtain ⟨rfl, rfl⟩ := ih operand
      exact ⟨rfl, rfl⟩
  | word bare _ ih =>
    cases h' with
    | word _ selectors => exact ih selectors
    | call => exact absurd rfl bare
  | call _ ih =>
    cases h' with
    | word bare => exact absurd rfl bare
    | call arguments => exact ih arguments
  | group first group ihfirst ihgroup =>
    cases h' with
    | group first' group' =>
      obtain ⟨rfl, rfl⟩ := ihfirst first'
      exact ihgroup group'
    | binder => exact absurd group first.not_group_words
  | binder _ _ ihcondition ihinner =>
    cases h' with
    | group first group => exact absurd group first.not_group_words
    | binder condition inner =>
      obtain ⟨rfl, hcolon⟩ := ihcondition condition
      cases hcolon
      obtain ⟨rfl, hclosing⟩ := ihinner inner
      cases hclosing
      exact ⟨rfl, rfl⟩
  | formula _ _ ihoperand ihsigns =>
    cases h' with
    | formula operand signs =>
      obtain ⟨rfl, rfl⟩ := ihoperand operand
      exact ihsigns signs
  | stop below =>
    cases h' with
    | stop => exact ⟨rfl, rfl⟩
    | sign tight => exact absurd (below _ rfl) (Nat.not_lt.mpr tight)
  | sign tight _ _ ihright ihsigns =>
    cases h' with
    | stop below => exact absurd (below _ rfl) (Nat.not_lt.mpr tight)
    | sign _ right signs =>
      obtain ⟨rfl, rfl⟩ := ihright right
      exact ihsigns signs
  | unselected bare =>
    cases h' with
    | unselected => exact ⟨rfl, rfl⟩
    | selected => exact absurd rfl bare
  | selected _ _ ihselector ihselectors =>
    cases h' with
    | unselected bare => exact absurd rfl bare
    | selected selector selectors =>
      obtain ⟨rfl, hbracket⟩ := ihselector selector
      cases hbracket
      exact ihselectors selectors
  | store _ _ _ ihselector ihvalue ihselectors =>
    cases h' with
    | store selector value selectors =>
      obtain ⟨rfl, hcolon⟩ := ihselector selector
      cases hcolon
      obtain ⟨rfl, hclosing⟩ := ihvalue value
      cases hclosing
      exact ihselectors selectors
    -- no sign is read before a semicolon, and then no parenthesis comes
    | close signs => cases (signs.eq_of_signs (by simp)).2
  | close signs ih =>
    cases h' with
    | store => cases (signs.eq_of_signs (by simp)).2
    | close signs' =>
      obtain ⟨rfl, hclosing⟩ := ih signs'
      cases hclosing
      exact ⟨rfl, rfl⟩
  | noArguments =>
    cases h' with
    | noArguments => exact ⟨rfl, rfl⟩
    | arguments first =>
      -- nothing that is read starts with a closing parenthesis
      cases first with
      | formula operand => cases operand
  | arguments first _ ihfirst ihmore =>
    cases h' with
    | noArguments =>
      cases first with
      | formula operand => cases operand
    | arguments first' more =>
      obtain ⟨rfl, rfl⟩ := ihfirst first'
      exact ihmore more
  | moreArguments _ _ ihnext ihmore =>
    cases h' with
    | moreArguments next more =>
      obtain ⟨rfl, rfl⟩ := ihnext next
      exact ihmore more
  | lastArgument =>
    cases h'
    exact ⟨rfl, rfl⟩

/-- A formula in parentheses is an operand. -/
theorem parens (h : Reads I (.formula 0) ts d (.closing :: rest)) :
    Reads I .operand (.opening :: ts) d rest := by
  cases h with
  | formula operand signs => exact .group operand (.close signs)

end Reads

/-! ## Readable tokens -/

/-- Tokens before which an operand ends. -/
def Ends (rest : List Token) : Prop :=
  rest.head? ≠ some .opening ∧ rest.head? ≠ some .leftBracket

/-- Tokens before which a formula ends. -/
def Closes (rest : List Token) : Prop :=
  Ends rest ∧ Below 0 rest

/-- At the end of the text an expression is closed. -/
theorem closes_nil : Closes [] := by
  simp [Closes, Ends, Below]

/-- A closing parenthesis or bracket, a comma and a colon close an expression. -/
theorem closes_cons {t : Token} (h : t ∈ [.closing, .rightBracket, .comma, .colon])
    (rest : List Token) : Closes (t :: rest) := by
  simp only [List.mem_cons, List.not_mem_nil, or_false] at h
  rcases h with rfl | rfl | rfl | rfl <;> simp [Closes, Ends, Below]

/-- An operand ends before an operator. -/
theorem ends_sign (op : Sign) (rest : List Token) : Ends (.sign op :: rest) := by
  simp [Ends]

/-- Operators below a rank are below every higher rank. -/
theorem Below.mono {m n : Nat} {rest : List Token} (h : Below m rest) (hmn : m ≤ n) :
    Below n rest :=
  fun op hop => Nat.lt_of_lt_of_le (h op hop) hmn

/-- An operator is below every rank that is higher than its own. -/
theorem below_sign {op : Sign} {m : Nat} (h : op.rank < m) (rest : List Token) :
    Below m (.sign op :: rest) := by
  intro op' hop'
  cases hop'
  exact h

/-- The tokens that `text` gives for each tightness are read as `d`. At the start of a formula they
are read before any sign that follows; after a sign they are its right operand. -/
structure Readable (I : Interpretation) (truth : Bool) (text : Prec → List Token) (d : Sense) :
    Prop where
  /-- The tokens at a place are read before signs that do not bind more tightly than the place. -/
  formula : ∀ {q : Prec} {m : Nat} {rest rest' : List Token} {u : Sense}, m ≤ q.rank → Ends rest →
    Below (q.rank + 1) rest → Reads I (.signs m d) rest u rest' →
      Reads I (.formula m) (text q ++ rest) u rest'
  /-- The tokens after a sign are joined to what stands before it. -/
  right : ∀ {op : Sign} {m : Nat} {left u : Sense} {rest rest' : List Token},
    op.joinsTruths = truth → m ≤ op.rank → Ends rest → Below op.rightRank rest →
      Reads I (.signs m (op.join left d)) rest u rest' →
        Reads I (.signs m left) (.sign op :: (text op.rightPrec ++ rest)) u rest'

namespace Readable

variable {I : Interpretation} {truth : Bool} {text : Prec → List Token} {d : Sense}

/-- What is an operand at every place can be read. -/
theorem of_operand
    (h : ∀ q {rest}, Ends rest → Reads I .operand (text q ++ rest) d rest) :
    Readable I truth text d where
  formula _ hends _ hsigns := .formula (h _ hends) hsigns
  right _ hm hends hbelow hsigns := .sign hm (.formula (h _ hends) (.stop hbelow)) hsigns

/-- What is read together with its selectors is an operand if there are none. -/
theorem of_selectors {ts : List Token}
    (h : ∀ {rest rest' : List Token} {u : Sense}, rest.head? ≠ some .opening →
      Reads I (.selectors d) rest u rest' → Reads I .operand (ts ++ rest) u rest') :
    Readable I false (fun _ => ts) d :=
  .of_operand fun _ _ hends => h hends.1 (.unselected hends.2)

/-- At a place that is tighter than any sign there is an operand. -/
theorem operand (h : Readable I truth text d) {q : Prec} (hq : 8 ≤ q.rank) {rest : List Token}
    (hends : Ends rest) : Reads I .operand (text q ++ rest) d rest := by
  have hbelow : Below 8 rest := fun op _ => op.rank_lt
  have hformula := h.formula hq hends (hbelow.mono (by omega)) (.stop hbelow)
  cases hformula with
  | formula operand signs =>
    cases signs with
    | stop => exact operand
    | sign tight => exact absurd (Sign.rank_lt _) (Nat.not_lt.mpr tight)

/-- On its own the text is a whole formula. -/
theorem whole (h : Readable I truth text d) {rest : List Token} (hcloses : Closes rest) :
    Reads I (.formula 0) (text .lowest ++ rest) d rest :=
  h.formula (Nat.zero_le _) hcloses.1 (hcloses.2.mono (Nat.zero_le _)) (.stop hcloses.2)

variable {op : Sign} {l r : Prec → List Token} {a b : Sense}

/-- Two operands and the sign between them, without parentheses, are read before looser signs. -/
theorem bare (hl : Readable I op.joinsTruths l a) (hr : Readable I op.joinsTruths r b) {m : Nat}
    {u : Sense} {rest rest' : List Token} (hm : m ≤ op.rank) (hends : Ends rest)
    (hbelow : Below op.rightRank rest) (hsigns : Reads I (.signs m (op.join a b)) rest u rest') :
    Reads I (.formula m) ((l op.prec ++ .sign op :: r op.rightPrec) ++ rest) u rest' := by
  rw [List.append_assoc, List.cons_append]
  exact hl.formula hm (ends_sign op _) (below_sign (Nat.lt_succ_self _) _)
    (hr.right rfl hm hends hbelow hsigns)

/-- In parentheses they are an operand. -/
theorem parens (hl : Readable I op.joinsTruths l a) (hr : Readable I op.joinsTruths r b)
    (rest : List Token) :
    Reads I .operand (.opening :: ((l op.prec ++ .sign op :: r op.rightPrec) ++ [.closing]) ++ rest)
      (op.join a b) rest := by
  have hcloses : Closes ([.closing] ++ rest) := closes_cons (by decide) rest
  rw [List.cons_append, List.append_assoc]
  exact .parens (bare hl hr (Nat.zero_le _) hcloses.1 (hcloses.2.mono (Nat.zero_le _))
    (.stop hcloses.2))

/-- Two operands and the sign between them can be read. -/
theorem between (op : Sign) (hl : Readable I op.joinsTruths l a)
    (hr : Readable I op.joinsTruths r b) :
    Readable I op.makesTruth (op.between l r) (op.join a b) where
  formula {q} m rest rest' u hm hends hbelow hsigns := by
    unfold Sign.between enclosed
    by_cases hq : op.isBracketed q = true
    · rw [if_pos hq]
      exact .formula (parens hl hr rest) hsigns
    · have hrank := Sign.rank_le_of_isBracketed (eq_false_of_ne_true hq)
      rw [if_neg hq]
      exact bare hl hr (hm.trans hrank.1) hends (hbelow.mono hrank.2) hsigns
  right {op'} m left u rest rest' hkind hm hends hbelow hsigns := by
    unfold Sign.between enclosed
    by_cases hq : op.isBracketed op'.rightPrec = true
    · rw [if_pos hq]
      exact .sign hm (.formula (parens hl hr rest) (.stop hbelow)) hsigns
    · rw [if_neg hq]
      rcases Sign.rightRank_le_or_regroups hkind (eq_false_of_ne_true hq) with hrank | hregroups
      · -- the right operand of `op'` takes in `op` and both its operands
        have hright : Below op.rightRank rest := hbelow.mono (hrank.trans op.rank_le_rightRank)
        exact .sign hm (bare hl hr hrank hends hright (.stop hbelow)) hsigns
      · -- the text is read as `(left op' a) op b`, which means the same
        obtain ⟨hprec, hrank, hright', hright, hjoins⟩ := Sign.eq_of_regroups hregroups
        rw [← Sign.join_join_of_regroups hregroups] at hsigns
        rw [List.append_assoc, List.cons_append, ← hprec]
        have hsecond := hr.right rfl (hm.trans hrank.le) hends
          (hbelow.mono (hright'.trans hright.symm).le) hsigns
        exact hl.right hjoins hm (ends_sign op _) (below_sign (by omega) _) hsecond

end Readable

end Surface

end GuardedCommand
