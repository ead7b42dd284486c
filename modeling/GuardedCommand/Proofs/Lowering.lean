import GuardedCommand.Decimal.Basic
import GuardedCommand.Proofs.LoweringSteps
import GuardedCommand.Proofs.Substitution
import GuardedCommand.Proofs.TermMeaning
import GuardedCommand.Proofs.TermText
import GuardedCommand.Shorthand.Define

/-! # Meaning of lowered formulas

The term of a formula means what the formula means, if every claim on the way does. Without triggers
there are no claims: the term of a predicate is then read back from its text, and it holds in the
states in which the predicate holds.

* `Prover.IsName`: the names that a formula may use, which are identifiers and no words of the
  prover.
* `Term.Says`, `Term.Gives`: a term can be read and means what a predicate, or something that has a
  value, means. There is one lemma for each way in which lowering builds a term.
* `Claim.Keeps`, `Node.Lowerable`: claims that keep the meaning, and properties of nodes under which
  all claims do.
* `Node.standsFor_of_lowerParts`, `Node.standsFor_of_lower`: one step of lowering, and all of them.
* `Predicate.readAll_of_lower`: the statement for texts, without triggers.
-/

namespace GuardedCommand

/-! ## Names -/

/-- Every occurrence: free, bound, and of called functions and relations. -/
def Mention.every : Mention := { bound := true, calls := true }

/-- A binder mentions its variable and all that is mentioned below it. -/
@[simp] theorem Mention.binder_every (k : String) (xs : List String) :
    Mention.every.binder k xs = k :: xs := rfl

/-- A call mentions its name and all that is mentioned in its arguments. -/
@[simp] theorem Mention.call_every (f : String) (xs : List String) :
    Mention.every.call f xs = f :: xs := rfl

/-- An identifier starts with a letter or an underscore, and the digits come after it. -/
theorem exists_cons_of_isIdentifier {x : String} (h : isIdentifier x = true) :
    ∃ c cs, x.toList = c :: cs ∧ isIdentifierStart c = true ∧
      ∀ d ∈ cs, isIdentifierStart d = true ∨ d.isDigit = true := by
  unfold isIdentifier at h
  split at h
  · cases h
  · next c cs hx =>
    rw [Bool.and_eq_true, List.all_eq_true] at h
    exact ⟨c, cs, hx, h.1, fun d hd => Bool.or_eq_true_iff.mp (h.2 d hd)⟩

/-- The first characters of identifiers lie between the capital and the small letters. -/
theorem toNat_of_isIdentifierStart {c : Char} (h : isIdentifierStart c = true) :
    65 ≤ c.toNat ∧ c.toNat ≤ 122 := by
  have hstart : isIdentifierStart c = (decide ('A'.val ≤ c.val ∧ c.val ≤ 'Z'.val) ||
      decide ('a'.val ≤ c.val) && decide (c.val ≤ 'z'.val) || c == '_') := rfl
  simp only [hstart, Bool.or_eq_true, Bool.and_eq_true, decide_eq_true_eq, beq_iff_eq,
    UInt32.le_iff_toNat_le] at h
  change ((65 ≤ c.toNat ∧ c.toNat ≤ 90) ∨ (97 ≤ c.toNat ∧ c.toNat ≤ 122)) ∨ c = '_' at h
  rcases h with (h | h) | rfl
  · omega
  · omega
  · decide

/-- The digits and what lies between the capital and the small letters belong to words. -/
theorem endsWord_eq_false {c : Char}
    (h : 48 ≤ c.toNat ∧ c.toNat ≤ 57 ∨ 65 ≤ c.toNat ∧ c.toNat ≤ 122) :
    Term.endsWord c = false := by
  have hopening : c ≠ '(' := by
    rintro rfl
    revert h
    decide
  have hclosing : c ≠ ')' := by
    rintro rfl
    revert h
    decide
  have hblank : isBlank c = false := by
    rw [← Bool.not_eq_true]
    simp only [isBlank, Bool.or_eq_true, Bool.and_eq_true, decide_eq_true_eq, beq_iff_eq]
    omega
  simp [Term.endsWord, hopening, hclosing, hblank]

/-- The digits of a number are a word. -/
theorem isWord_toString (n : Nat) : Term.IsWord (toString n) := by
  have hlist : (toString n).toList = Nat.toDigits 10 n := by
    rw [Nat.toString_eq_repr, Nat.toList_repr]
  rw [Term.IsWord, hlist]
  refine ⟨Nat.toDigits_ne_nil, fun c hc => endsWord_eq_false (.inl ((Decimal.isDigit_iff c).mp ?_))⟩
  exact Nat.isDigit_of_mem_toDigits (by decide) (by decide) hc

namespace Prover

/-- A name that the prover takes for nothing else: an identifier that is not one of its words. -/
structure IsName (x : String) : Prop where
  /-- The name is an identifier. -/
  isIdentifier : isIdentifier x = true
  /-- The prover has no meaning for it. -/
  notMem_words : x ∉ words

variable {x : String}

/-- A name is a word. -/
theorem IsName.isWord (h : IsName x) : Term.IsWord x := by
  obtain ⟨c, cs, hx, hc, hcs⟩ := exists_cons_of_isIdentifier h.isIdentifier
  rw [Term.IsWord, hx]
  refine ⟨List.cons_ne_nil c cs, fun d hd => endsWord_eq_false ?_⟩
  rcases List.mem_cons.mp hd with rfl | hd
  · exact .inr (toNat_of_isIdentifierStart hc)
  · exact (hcs d hd).symm.imp (Decimal.isDigit_iff d).mp toNat_of_isIdentifierStart

/-- A name is no number. -/
theorem IsName.numeral?_eq_none (h : IsName x) : numeral? x = none := by
  obtain ⟨c, cs, hx, hc, -⟩ := exists_cons_of_isIdentifier h.isIdentifier
  refine Prover.numeral?_eq_none hx ?_
  rw [← Bool.not_eq_true]
  intro hdigit
  have := (Decimal.isDigit_iff c).mp hdigit
  have := toNat_of_isIdentifierStart hc
  omega

end Prover

/-- All names of a node: free, bound, and of called functions and relations. -/
def Node.words : Node → List String
  | .predicate p => p.names .every
  | .int e => e.names .every
  | .var v => v.names .every
  | .expr e => e.names .every

/-- An argument mentions no more than the arguments do. -/
theorem Expr.names_subset_namesAll {m : Mention} {e : Expr} {es : List Expr} (h : e ∈ es) :
    e.names m ⊆ Expr.namesAll m es := by
  induction es with
  | nil => cases h
  | cons d ds ih =>
    rw [Expr.namesAll]
    rcases List.mem_cons.mp h with rfl | h
    · exact List.subset_append_left ..
    · exact List.subset_append_of_subset_right _ (ih h)

/-- The parts of a node have no names beyond its own. -/
theorem Node.words_subset_of_mem_children {m n : Node} (h : m ∈ n.children) :
    m.words ⊆ n.words := by
  intro x hx
  cases n with
  | predicate p =>
    cases p with
    | const b => cases h
    | call f args =>
      obtain ⟨e, he, rfl⟩ := List.mem_map.mp h
      exact List.mem_cons_of_mem f (Expr.names_subset_namesAll he hx)
    | _ =>
      simp only [children, List.mem_cons, List.not_mem_nil, or_false] at h
      rcases h with rfl | rfl | rfl <;> simp_all [words, Predicate.names]
  | int e =>
    cases e with
    | const c => cases h
    | call f args =>
      obtain ⟨e, he, rfl⟩ := List.mem_map.mp h
      exact List.mem_cons_of_mem f (Expr.names_subset_namesAll he hx)
    | _ =>
      simp only [children, List.mem_cons, List.not_mem_nil, or_false] at h
      rcases h with rfl | rfl <;> simp_all [words, IntExpr.names]
  | var v =>
    cases v with
    | name y => cases h
    | _ =>
      simp only [children, List.mem_cons, List.not_mem_nil, or_false] at h
      rcases h with rfl | rfl | rfl <;> simp_all [words, Variable.names]
  | expr e =>
    cases e with
    | _ =>
      rw [children, List.mem_singleton] at h
      subst h
      exact hx

/-! ## Hints are parts

A hint is a part of the formula that it was found in, so it has whatever property is handed on to
parts. -/

/-- What comes from one of two sources comes from the first or from the second. -/
theorem cases_of_orElse {α : Type} {f g : Option α} {a : α} (h : (f <|> g) = some a) :
    f = some a ∨ g = some a := by
  rw [Option.orElse_eq_orElse, Option.orElse_eq_or, Option.or_eq_some_iff] at h
  exact h.imp_right And.right

section

variable {S : Node → Prop} {k : String}

mutual

/-- The hint of a variable is a part of it. -/
theorem Variable.of_hint? (hS : ∀ n, S n → ∀ m ∈ n.children, S m) (v : Variable) {u : Variable}
    (h : v.hint? k = some u) (hv : S (.var v)) : S (.var u) := by
  have hparts := hS _ hv
  cases v with
  | name x => simp [Variable.hint?] at h
  | select b i =>
    simp only [Node.children, List.forall_mem_cons] at hparts
    rw [Variable.hint?] at h
    split at h
    · exact Option.some.inj h ▸ hv
    · rcases cases_of_orElse h with h | h
      · exact b.of_hint? hS h hparts.1
      · exact i.of_hint? hS h hparts.2.1
  | store b i e =>
    simp only [Node.children, List.forall_mem_cons] at hparts
    rcases cases_of_orElse h with h | h
    · exact b.of_hint? hS h hparts.1
    · rcases cases_of_orElse h with h | h
      · exact i.of_hint? hS h hparts.2.1
      · exact e.of_hint? hS h hparts.2.2.1

/-- The hint of an expression is a part of it. -/
theorem Expr.of_hint? (hS : ∀ n, S n → ∀ m ∈ n.children, S m) (e : Expr) {u : Variable}
    (h : e.hint? k = some u) (he : S (.expr e)) : S (.var u) := by
  have hparts := hS _ he
  cases e with
  | map v => exact v.of_hint? hS h (hparts _ (List.mem_singleton_self _))
  | int e => exact e.of_hint? hS h (hparts _ (List.mem_singleton_self _))

/-- The hint of an integer expression is a part of it. -/
theorem IntExpr.of_hint? (hS : ∀ n, S n → ∀ m ∈ n.children, S m) (e : IntExpr) {u : Variable}
    (h : e.hint? k = some u) (he : S (.int e)) : S (.var u) := by
  have hparts := hS _ he
  cases e with
  | const c => simp [IntExpr.hint?] at h
  | var v => exact v.of_hint? hS h (hparts _ (List.mem_singleton_self _))
  | negate e => exact e.of_hint? hS h (hparts _ (List.mem_singleton_self _))
  | binary op l r =>
    simp only [Node.children, List.forall_mem_cons] at hparts
    rcases cases_of_orElse h with h | h
    · exact l.of_hint? hS h hparts.1
    · exact r.of_hint? hS h hparts.2.1
  | call f args =>
    exact Expr.of_hintAll? hS args h fun e he => hparts _ (List.mem_map_of_mem he)
  | fold op j c e =>
    simp only [Node.children, List.forall_mem_cons] at hparts
    rw [IntExpr.hint?] at h
    split at h
    · cases h
    · rcases cases_of_orElse h with h | h
      · exact c.of_hint? hS h hparts.1
      · exact e.of_hint? hS h hparts.2.1
  | count j c p =>
    simp only [Node.children, List.forall_mem_cons] at hparts
    rw [IntExpr.hint?] at h
    split at h
    · cases h
    · rcases cases_of_orElse h with h | h
      · exact c.of_hint? hS h hparts.1
      · exact p.of_hint? hS h hparts.2.1

/-- The hint of a predicate is a part of it. -/
theorem Predicate.of_hint? (hS : ∀ n, S n → ∀ m ∈ n.children, S m) (p : Predicate) {u : Variable}
    (h : p.hint? k = some u) (hp : S (.predicate p)) : S (.var u) := by
  have hparts := hS _ hp
  cases p with
  | const b => simp [Predicate.hint?] at h
  | not p => exact p.of_hint? hS h (hparts _ (List.mem_singleton_self _))
  | binary op l r =>
    simp only [Node.children, List.forall_mem_cons] at hparts
    rcases cases_of_orElse h with h | h
    · exact l.of_hint? hS h hparts.1
    · exact r.of_hint? hS h hparts.2.1
  | comp op l r =>
    simp only [Node.children, List.forall_mem_cons] at hparts
    rcases cases_of_orElse h with h | h
    · exact l.of_hint? hS h hparts.1
    · exact r.of_hint? hS h hparts.2.1
  | call f args =>
    exact Expr.of_hintAll? hS args h fun e he => hparts _ (List.mem_map_of_mem he)
  | perm a b n =>
    simp only [Node.children, List.forall_mem_cons] at hparts
    rcases cases_of_orElse h with h | h
    · exact a.of_hint? hS h hparts.1
    · rcases cases_of_orElse h with h | h
      · exact b.of_hint? hS h hparts.2.1
      · exact n.of_hint? hS h hparts.2.2.1
  | quant q j c p =>
    simp only [Node.children, List.forall_mem_cons] at hparts
    rw [Predicate.hint?] at h
    split at h
    · cases h
    · rcases cases_of_orElse h with h | h
      · exact c.of_hint? hS h hparts.1
      · exact p.of_hint? hS h hparts.2.1

/-- The hint of arguments is a part of one of them. -/
theorem Expr.of_hintAll? (hS : ∀ n, S n → ∀ m ∈ n.children, S m) (es : List Expr) {u : Variable}
    (h : Expr.hintAll? k es = some u) (hes : ∀ e ∈ es, S (.expr e)) : S (.var u) := by
  cases es with
  | nil => simp [Expr.hintAll?] at h
  | cons e es =>
    rw [List.forall_mem_cons] at hes
    rcases cases_of_orElse h with h | h
    · exact e.of_hint? hS h hes.1
    · exact Expr.of_hintAll? hS es h hes.2

end

end

/-! ## Terms that mean what formulas mean -/

namespace Term

/-- A term can be read, and it holds where a predicate holds. -/
def Says (I : Interpretation) (t : Term) (p : Predicate) : Prop :=
  t.Legible ∧ ∀ s, t.Holds I s ↔ p.Holds I s

/-- A term can be read, and it has the value of an expression. -/
def Gives (I : Interpretation) (t : Term) (e : Expr) : Prop :=
  t.Legible ∧ ∀ s, t.value I s = e.value I s

/-- Terms can be read, and they have the values of expressions. -/
def GivesAll (I : Interpretation) (ts : List Term) (es : List Expr) : Prop :=
  LegibleAll ts ∧ ∀ s, valueAll I ts s = Expr.valueAll I es s

/-- A term can be read and means what a node means. -/
def StandsFor (I : Interpretation) (t : Term) : Node → Prop
  | .predicate p => t.Says I p
  | .int e => t.Gives I (.int e)
  | .var v => t.Gives I (.map v)
  | .expr e => t.Gives I e

variable {I : Interpretation} {t u : Term} {p q : Predicate} {d e : IntExpr} {k : String}

instance (text : String) : Decidable (IsWord text) :=
  decidable_of_iff ((!text.toList.isEmpty && text.toList.all (!endsWord ·)) = true)
    (by simp [IsWord])

/-! ### Predicates -/

/-- A truth value says what the constant predicate says. -/
theorem says_bool (b : Bool) : (bool b).Says I (.const b) := by
  have hword : IsWord (if b then "TRUE" else "FALSE") := by cases b <;> decide
  refine ⟨legible_atom.mpr hword, fun s => ?_⟩
  cases b <;> simp [bool, Holds, Predicate.Holds]

/-- A negation says what the negated predicate says. -/
theorem Says.not (hp : t.Says I p) : (apply "NOT" [t]).Says I (.not p) := by
  refine ⟨by simp [hp.1, show IsWord "NOT" by decide], fun s => ?_⟩
  rw [holds_of_connective rfl, Predicate.holds_not, ← hp.2]
  rfl

/-- A connective says what the joined predicates say. -/
theorem Says.binary (op : BoolOp) (hp : t.Says I p) (hq : u.Says I q) :
    (apply op.proverName [t, u]).Says I (.binary op p q) := by
  have hword : IsWord op.proverName := by cases op <;> decide
  refine ⟨by simp [hp.1, hq.1, hword], fun s => ?_⟩
  rw [Predicate.Holds, ← hp.2, ← hq.2]
  cases op <;> rw [BoolOp.proverName, holds_of_connective rfl] <;> simp [holdsAll, BoolOp.Joins]

/-- A comparison says what the compared expressions say. -/
theorem Gives.comp (op : CompOp) (hd : t.Gives I (.int d)) (he : u.Gives I (.int e)) :
    (apply op.proverName [t, u]).Says I (.comp op d e) := by
  have hword : IsWord op.proverName := by cases op <;> decide
  refine ⟨by simp [hd.1, he.1, hword], fun s => ?_⟩
  rw [Predicate.Holds, ← Expr.value, ← Expr.value, ← hd.2, ← he.2]
  cases op <;> exact holds_of_comparison rfl rfl t u

/-- A relation of terms says what the call of the relation says. -/
theorem GivesAll.says_call {f : String} {ts : List Term} {es : List Expr} (hf : Prover.IsName f)
    (h : GivesAll I ts es) : (apply f ts).Says I (.call f es) := by
  refine ⟨legible_apply.mpr ⟨hf.isWord, h.1⟩, fun s => ?_⟩
  rw [holds_apply_of_notMem hf.notMem_words, Predicate.Holds, h.2]

/-- A hint changes nothing in what a universal quantifier says. -/
theorem holds_all {s : State} (k : String) (hint : Option Term) (t u : Term) :
    (all k hint t u).Holds I s ↔
      ∀ n : Int, t.Holds I (Function.update s k (.int n)) →
        u.Holds I (Function.update s k (.int n)) := by
  have hbody (n : Int) : (apply "IMPLIES" [t, u]).Holds I (Function.update s k (.int n)) ↔
      (t.Holds I (Function.update s k (.int n)) → u.Holds I (Function.update s k (.int n))) := by
    rw [holds_of_connective rfl]
    rfl
  cases hint with
  | none =>
    rw [all, apply, Holds]
    exact forall_congr' hbody
  | some hint =>
    rw [all, apply, Holds]
    exact forall_congr' hbody

/-- A universal quantifier says what the quantified predicate says, with any hint. -/
theorem Says.all {hint : Option Term} (hk : Prover.IsName k) (hhint : ∀ h ∈ hint, h.Legible)
    (hp : t.Says I p) (hq : u.Says I q) : (all k hint t u).Says I (.quant .all k p q) := by
  have hbody : (apply "IMPLIES" [t, u]).Legible := by
    simp [hp.1, hq.1, show IsWord "IMPLIES" by decide]
  have hforall : IsWord "FORALL" := by decide
  refine ⟨?_, fun s => ?_⟩
  · cases hint with
    | none => simp [Term.all, hforall, hk.isWord, hbody]
    | some h =>
      simp [Term.all, hforall, hk.isWord, hbody, hhint h rfl, show IsWord "PATS" by decide]
  · rw [holds_all, Predicate.Holds, Quantifier.Ranges]
    simp only [hp.2, hq.2]

/-- An existential quantifier says what the quantified predicate says. -/
theorem Says.some (hk : Prover.IsName k) (hp : t.Says I p) (hq : u.Says I q) :
    (Term.some k t u).Says I (.quant .some k p q) := by
  have hwords : IsWord "EXISTS" ∧ IsWord "AND" := by decide
  refine ⟨by simp [Term.some, hwords, hk.isWord, hp.1, hq.1], fun s => ?_⟩
  have hbody (n : Int) : (apply "AND" [t, u]).Holds I (Function.update s k (.int n)) ↔
      t.Holds I (Function.update s k (.int n)) ∧ u.Holds I (Function.update s k (.int n)) := by
    rw [holds_of_connective rfl]
    simp [holdsAll]
  rw [Predicate.Holds, Quantifier.Ranges, Term.some, apply, Holds]
  simp only [← hp.2, ← hq.2]
  exact exists_congr hbody

/-! ### Integer expressions -/

/-- A negated term can be read. -/
theorem legible_negate (h : t.Legible) : (negate t).Legible := by
  simp [negate, h, show IsWord "-" ∧ IsWord "0" by decide]

/-- A difference from zero is the negation. -/
theorem value_negate {s : State} (t : Term) :
    (negate t).value I s = .int (-(t.value I s).toInt) := by
  have hzero : Prover.numeral? "0" = Option.some 0 := by decide
  rw [negate, value_of_operation rfl]
  simp [valueAll, value, hzero]

/-- The digits of a natural number give the number. -/
theorem value_nat {s : State} (n : Nat) : (nat n).value I s = .int n := by
  rw [nat, value, Prover.numeral?_toString]

/-- An integer literal gives the integer. -/
theorem gives_int (c : Int) : (int c).Gives I (.int (.const c)) := by
  have hnat : (nat c.natAbs).Legible := legible_atom.mpr (isWord_toString c.natAbs)
  by_cases hc : c < 0
  · have habs : -(c.natAbs : Int) = c := by omega
    rw [int, if_pos hc]
    refine ⟨legible_negate hnat, fun s => ?_⟩
    rw [value_negate, value_nat, Value.toInt_int, habs, Expr.value, IntExpr.value]
  · have habs : (c.natAbs : Int) = c := by omega
    rw [int, if_neg hc]
    refine ⟨hnat, fun s => ?_⟩
    rw [value_nat, habs, Expr.value, IntExpr.value]

/-- A negated term gives the negated value. -/
theorem Gives.negate (h : t.Gives I (.int e)) : (negate t).Gives I (.int (.negate e)) := by
  refine ⟨legible_negate h.1, fun s => ?_⟩
  rw [value_negate, h.2, Expr.value, Expr.value, IntExpr.value]

/-- An operator gives what it makes of the values of its operands. -/
theorem Gives.binary (op : ArithOp) (hd : t.Gives I (.int d)) (he : u.Gives I (.int e)) :
    (apply op.proverName [t, u]).Gives I (.int (.binary op d e)) := by
  have hword : IsWord op.proverName := by cases op <;> decide
  refine ⟨by simp [hd.1, he.1, hword], fun s => ?_⟩
  rw [Expr.value, IntExpr.value, ← Expr.value, ← Expr.value, ← hd.2, ← he.2]
  cases op <;> rw [ArithOp.proverName, value_of_operation rfl] <;> simp [valueAll, ArithOp.apply]

/-- A function of terms gives the value of the call of the function. -/
theorem GivesAll.gives_call {f : String} {ts : List Term} {es : List Expr} (hf : Prover.IsName f)
    (h : GivesAll I ts es) : (apply f ts).Gives I (.int (.call f es)) := by
  refine ⟨legible_apply.mpr ⟨hf.isWord, h.1⟩, fun s => ?_⟩
  rw [value_apply_of_notMem hf.notMem_words, Expr.value, IntExpr.value, h.2]

/-! ### Variables and arguments -/

/-- A name gives its value. -/
theorem gives_name (hk : Prover.IsName k) : (atom k).Gives I (.map (.name k)) := by
  refine ⟨legible_atom.mpr hk.isWord, fun s => ?_⟩
  rw [value, hk.numeral?_eq_none, Expr.value, Variable.value]

/-- An element gives the value of the array at the index. -/
theorem Gives.select {b : Variable} (hb : t.Gives I (.map b)) (he : u.Gives I (.int e)) :
    (apply "select" [t, u]).Gives I (.map (.select b e)) := by
  refine ⟨by simp [hb.1, he.1, show IsWord "select" by decide], fun s => ?_⟩
  rw [value_of_operation rfl, Expr.value, Variable.value, ← Expr.value, ← Expr.value, ← hb.2,
    ← he.2]
  simp [valueAll]

/-- A map with a stored element gives the map with this element replaced. -/
theorem Gives.store {b : Variable} {w : Term} {x : Expr} (hb : t.Gives I (.map b))
    (he : u.Gives I (.int e)) (hx : w.Gives I x) :
    (apply "store" [t, u, w]).Gives I (.map (.store b e x)) := by
  refine ⟨by simp [hb.1, he.1, hx.1, show IsWord "store" by decide], fun s => ?_⟩
  rw [value_of_operation rfl, Expr.value, Variable.value, ← Expr.value, ← Expr.value, ← hb.2,
    ← he.2, ← hx.2]
  simp [valueAll]

/-- The empty list of terms gives the empty list of arguments. -/
theorem givesAll_nil : GivesAll I [] [] := by
  refine ⟨legibleAll_nil, fun s => ?_⟩
  rw [valueAll, Expr.valueAll]

/-- The terms of arguments, one after the other. -/
theorem Gives.cons {ts : List Term} {x : Expr} {es : List Expr} (hx : t.Gives I x)
    (h : GivesAll I ts es) : GivesAll I (t :: ts) (x :: es) := by
  refine ⟨legibleAll_cons.mpr ⟨hx.1, h.1⟩, fun s => ?_⟩
  rw [valueAll, Expr.valueAll, hx.2, h.2]

end Term

/-! ## Lowering

The induction is on the size of a node, as in lowering itself: the hint of a quantifier and the
parts of a claim are not immediate parts. -/

/-- A claim keeps the meaning of a node: its term stands for the node, as soon as the terms of its
parts stand for the parts. -/
def Claim.Keeps (I : Interpretation) : Claim → Node → Prop
  | .fixed t, n => t.StandsFor I n
  | .apply head parts, n => ∀ ts, Term.GivesAll I ts parts → (Term.apply head ts).StandsFor I n

/-- A property of nodes that is handed on to all that lowering meets. Where it holds, the names are
no words of the prover, and the claims of the triggers keep the meaning. -/
structure Node.Lowerable (ts : List Trigger) (I : Interpretation) (S : Node → Prop) : Prop where
  /-- All names of a node are names for the prover. -/
  isName : ∀ n, S n → ∀ x ∈ n.words, Prover.IsName x
  /-- The property is handed on to the immediate parts of a node. -/
  child : ∀ n, S n → ∀ m ∈ n.children, S m
  /-- The property is handed on to the parts of a claim. -/
  part : ∀ n, S n → ∀ t ∈ ts, ∀ c, t.claimOn n = some c → ∀ e ∈ c.parts, S (.expr e)
  /-- A claim keeps the meaning of the node. -/
  keeps : ∀ n, S n → ∀ t ∈ ts, ∀ c, t.claimOn n = some c → c.Keeps I n

section

variable {ts : List Trigger} {I : Interpretation} {S : Node → Prop} {t : Term}

/-- The terms of arguments give their values, if that of each argument does. -/
theorem Expr.givesAll_of_lowerAll {es : List Expr} {us : List Term}
    (hes : ∀ e ∈ es, ∀ t, e.lower ts = .ok t → t.Gives I e) (h : Expr.lowerAll ts es = .ok us) :
    Term.GivesAll I us es := by
  induction es generalizing us with
  | nil =>
    rw [Expr.lowerAll] at h
    cases h
    exact Term.givesAll_nil
  | cons e es ih =>
    rw [List.forall_mem_cons] at hes
    rw [Expr.lowerAll] at h
    obtain ⟨u, hu, h⟩ := exists_of_bind_eq_ok h
    obtain ⟨us, hus, h⟩ := exists_of_bind_eq_ok h
    cases h
    exact (hes.1 u hu).cons (ih hes.2 hus)

/-- The term of a claim that keeps the meaning stands for the node, if the terms of its parts stand
for the parts. -/
theorem Claim.Keeps.standsFor {c : Claim} {n : Node} (hc : c.Keeps I n)
    (hparts : ∀ e ∈ c.parts, ∀ t, e.lower ts = .ok t → t.Gives I e) (h : c.lower ts = .ok t) :
    t.StandsFor I n := by
  cases c with
  | fixed u =>
    cases h
    exact hc
  | apply head parts =>
    obtain ⟨us, hus, rfl⟩ := exists_of_map_eq_ok h
    exact hc us (Expr.givesAll_of_lowerAll hparts hus)

/-- A predicate that is not claimed, if the statement is true of everything smaller. -/
theorem Predicate.says_of_lowerParts (hS : Node.Lowerable ts I S) {p : Predicate}
    (hp : S (.predicate p))
    (ih : ∀ m : Node, m.size < p.size → S m → ∀ t, m.lower ts = .ok t → t.StandsFor I m)
    (h : p.lowerParts ts = .ok t) : t.Says I p := by
  have hnames := hS.isName _ hp
  have hparts := hS.child _ hp
  have hchild : ∀ m ∈ (Node.predicate p).children, ∀ t, m.lower ts = .ok t → t.StandsFor I m :=
    fun m hm => ih m (Node.size_lt_of_mem_children hm) (hparts m hm)
  -- For the parts the statement is `hchild`. Only the hint of a quantifier is none of them and
  -- needs `ih` itself.
  cases p with
  | const b =>
    cases h
    exact Term.says_bool b
  | not p =>
    obtain ⟨u, hu, h⟩ := exists_of_bind_eq_ok h
    cases h
    exact Term.Says.not (hchild _ (List.mem_singleton_self _) u hu)
  | binary op l r =>
    simp only [Node.children, List.forall_mem_cons] at hchild
    obtain ⟨u, hu, h⟩ := exists_of_bind_eq_ok h
    obtain ⟨w, hw, h⟩ := exists_of_bind_eq_ok h
    cases h
    exact Term.Says.binary op (hchild.1 u hu) (hchild.2.1 w hw)
  | comp op l r =>
    simp only [Node.children, List.forall_mem_cons] at hchild
    obtain ⟨u, hu, h⟩ := exists_of_bind_eq_ok h
    obtain ⟨w, hw, h⟩ := exists_of_bind_eq_ok h
    cases h
    exact Term.Gives.comp op (hchild.1 u hu) (hchild.2.1 w hw)
  | call f args =>
    simp only [Node.words, Predicate.names, Mention.call_every, List.forall_mem_cons] at hnames
    obtain ⟨us, hus, h⟩ := exists_of_bind_eq_ok h
    cases h
    have hargs := Expr.givesAll_of_lowerAll
      (fun e he => hchild (.expr e) (List.mem_map_of_mem he)) hus
    exact hargs.says_call hnames.1
  | perm a b n => cases h
  | quant q k c p =>
    simp only [Node.words, Predicate.names, Mention.binder_every, List.forall_mem_cons] at hnames
    simp only [Node.children, List.forall_mem_cons] at hchild hparts
    cases q with
    | all =>
      obtain ⟨u, hu, h⟩ := exists_of_bind_eq_ok h
      obtain ⟨w, hw, h⟩ := exists_of_bind_eq_ok h
      have hcondition : u.Says I c := hchild.1 u hu
      have hinner : w.Says I p := hchild.2.1 w hw
      split at h
      · next v hv =>
        have hsize := p.size_hint? hv
        obtain ⟨hint, hhint, h⟩ := exists_of_bind_eq_ok h
        cases h
        have hgives : hint.Gives I (.map v) :=
          ih (.var v) (by rw [Node.size, Predicate.size]; omega)
            (p.of_hint? hS.child hv hparts.2.1) hint hhint
        -- A hint has no part in the meaning, so it is enough that its term can be read.
        refine hcondition.all hnames.1 (fun t ht => ?_) hinner
        cases ht
        exact hgives.1
      · cases h
        exact hcondition.all hnames.1 (fun t ht => by cases ht) hinner
    | some =>
      rw [Predicate.lowerParts] at h
      split at h
      · cases h
      · obtain ⟨u, hu, h⟩ := exists_of_bind_eq_ok h
        obtain ⟨w, hw, h⟩ := exists_of_bind_eq_ok h
        cases h
        exact Term.Says.some hnames.1 (hchild.1 u hu) (hchild.2.1 w hw)

/-- An integer expression that is not claimed, if the terms of its parts stand for them. -/
theorem IntExpr.gives_of_lowerParts {e : IntExpr}
    (hnames : ∀ x ∈ (Node.int e).words, Prover.IsName x)
    (hchild : ∀ m ∈ (Node.int e).children, ∀ t, m.lower ts = .ok t → t.StandsFor I m)
    (h : e.lowerParts ts = .ok t) : t.Gives I (.int e) := by
  cases e with
  | const c =>
    cases h
    exact Term.gives_int c
  | var v =>
    have hv : t.Gives I (.map v) := hchild _ (List.mem_singleton_self _) t h
    refine ⟨hv.1, fun s => ?_⟩
    rw [hv.2, Expr.value, Expr.value, IntExpr.value]
  | negate e =>
    obtain ⟨u, hu, h⟩ := exists_of_bind_eq_ok h
    cases h
    exact Term.Gives.negate (hchild _ (List.mem_singleton_self _) u hu)
  | binary op l r =>
    simp only [Node.children, List.forall_mem_cons] at hchild
    obtain ⟨u, hu, h⟩ := exists_of_bind_eq_ok h
    obtain ⟨w, hw, h⟩ := exists_of_bind_eq_ok h
    cases h
    exact Term.Gives.binary op (hchild.1 u hu) (hchild.2.1 w hw)
  | call f args =>
    simp only [Node.words, IntExpr.names, Mention.call_every, List.forall_mem_cons] at hnames
    obtain ⟨us, hus, h⟩ := exists_of_bind_eq_ok h
    cases h
    have hargs := Expr.givesAll_of_lowerAll
      (fun e he => hchild (.expr e) (List.mem_map_of_mem he)) hus
    exact hargs.gives_call hnames.1
  | fold op k c e => cases h
  | count k c p => cases h

/-- A variable that is not claimed, if the terms of its parts stand for them. -/
theorem Variable.gives_of_lowerParts {v : Variable}
    (hnames : ∀ x ∈ (Node.var v).words, Prover.IsName x)
    (hchild : ∀ m ∈ (Node.var v).children, ∀ t, m.lower ts = .ok t → t.StandsFor I m)
    (h : v.lowerParts ts = .ok t) : t.Gives I (.map v) := by
  cases v with
  | name x =>
    cases h
    exact Term.gives_name (hnames x (List.mem_singleton_self x))
  | select b i =>
    simp only [Node.children, List.forall_mem_cons] at hchild
    obtain ⟨u, hu, h⟩ := exists_of_bind_eq_ok h
    obtain ⟨w, hw, h⟩ := exists_of_bind_eq_ok h
    cases h
    exact Term.Gives.select (hchild.1 u hu) (hchild.2.1 w hw)
  | store b i e =>
    simp only [Node.children, List.forall_mem_cons] at hchild
    obtain ⟨u, hu, h⟩ := exists_of_bind_eq_ok h
    obtain ⟨w, hw, h⟩ := exists_of_bind_eq_ok h
    obtain ⟨x, hx, h⟩ := exists_of_bind_eq_ok h
    cases h
    exact Term.Gives.store (hchild.1 u hu) (hchild.2.1 w hw) (hchild.2.2.1 x hx)

namespace Node

/-- One step of lowering without a claim, if the statement is true of everything smaller. -/
theorem standsFor_of_lowerParts (hS : Lowerable ts I S) {n : Node} (hn : S n)
    (ih : ∀ m : Node, m.size < n.size → S m → ∀ t, m.lower ts = .ok t → t.StandsFor I m)
    (h : n.lowerParts ts = .ok t) : t.StandsFor I n := by
  have hchild : ∀ m ∈ n.children, ∀ t, m.lower ts = .ok t → t.StandsFor I m :=
    fun m hm => ih m (size_lt_of_mem_children hm) (hS.child n hn m hm)
  cases n with
  | predicate p => exact Predicate.says_of_lowerParts hS hn ih h
  | int e => exact IntExpr.gives_of_lowerParts (hS.isName _ hn) hchild h
  | var v => exact Variable.gives_of_lowerParts (hS.isName _ hn) hchild h
  | expr e =>
    rw [lowerParts] at h
    cases e with
    | map v =>
      rw [Expr.lower] at h
      exact hchild (.var v) (List.mem_singleton_self _) t h
    | int e =>
      rw [Expr.lower] at h
      exact hchild (.int e) (List.mem_singleton_self _) t h

/-- The term of a node stands for the node. -/
theorem standsFor_of_lower (hS : Lowerable ts I S) (n : Node) (hn : S n) (t : Term)
    (h : n.lower ts = .ok t) : t.StandsFor I n := by
  have ih : ∀ m : Node, m.size < n.size → S m → ∀ t, m.lower ts = .ok t → t.StandsFor I m :=
    fun m _ => standsFor_of_lower hS m
  rcases lower_cases h with h | ⟨u, hu, c, hc, h⟩
  · exact standsFor_of_lowerParts hS hn ih h
  · refine (hS.keeps n hn u hu c hc).standsFor (fun e he => ?_) h
    exact ih (.expr e) (Trigger.size_lt_of_claimOn hc he) (hS.part n hn u hu c hc e he)
termination_by n.size

/-- Without triggers it is enough that all names are names for the prover. -/
theorem lowerable_nil (I : Interpretation) :
    Lowerable [] I fun n => ∀ x ∈ n.words, Prover.IsName x where
  isName _ h := h
  child _ h _ hm x hx := h x (words_subset_of_mem_children hm hx)
  part _ _ _ ht := by cases ht
  keeps _ _ _ ht := by cases ht

end Node

end

/-- The text of the term of a predicate is one line and holds one term, which holds in the states in
which the predicate does. -/
theorem Predicate.readAll_of_lower {p : Predicate} {t : Term}
    (hnames : ∀ x ∈ p.names .every, Prover.IsName x) (h : p.lower [] = .ok t) :
    (∀ c ∈ t.render.toList, isBlank c = true → c = ' ') ∧
      ∃ u, Term.readAll t.render = some [u] ∧ ∀ I s, u.Holds I s ↔ p.Holds I s := by
  have hmeans (I : Interpretation) : t.Says I p :=
    Node.standsFor_of_lower (Node.lowerable_nil I) (.predicate p) hnames t h
  have hlegible : t.Legible := (hmeans (.standard (fun _ _ => 0) fun _ _ => False)).1
  exact ⟨t.eq_blank_of_isBlank_render hlegible, t, Term.readAll_render hlegible,
    fun I => (hmeans I).2⟩

/-- The predicate `(A k : k < n : a[k] ≠ -3 ∨ (E j : sorted(a, j) : (a; j:k)[j] > g(j)))`. -/
def nestedQuantifiers : Predicate :=
  let a : Variable := .name "a"
  let k : IntExpr := .name "k"
  let j : IntExpr := .name "j"
  .quant .all "k" (.comp .lt k (.name "n"))
    (.or (.comp .ne (.var (.select a k)) (.const (-3)))
      (.quant .some "j" (.call "sorted" [.map a, .int j])
        (.comp .gt (.var (.select (.store a j (.int k)) j)) (.call "g" [.int j]))))

/-- Its term, as text. -/
theorem nestedQuantifiers_lower : (nestedQuantifiers.lower []).map Term.render = .ok
    ("(FORALL (k) (PATS (select a k)) (IMPLIES (< k n) (OR (NEQ (select a k) (- 0 3)) " ++
      "(EXISTS (j) (AND (sorted a j) (> (select (store a j k) j) (g j)))))))") := by
  cbv

/-- The text of that predicate's term holds one term, which means the same. -/
theorem nestedQuantifiers_readAll :
    (∀ x ∈ nestedQuantifiers.names .every, Prover.IsName x) ∧
      ∃ t, nestedQuantifiers.lower [] = .ok t ∧
        (∀ c ∈ t.render.toList, isBlank c = true → c = ' ') ∧
        ∃ u, Term.readAll t.render = some [u] ∧
          ∀ I s, u.Holds I s ↔ nestedQuantifiers.Holds I s := by
  have hnames : ∀ x ∈ nestedQuantifiers.names .every, Prover.IsName x := by
    have h : ∀ x ∈ nestedQuantifiers.names .every, isIdentifier x = true ∧ x ∉ Prover.words := by
      decide +kernel
    exact fun x hx => ⟨(h x hx).1, (h x hx).2⟩
  obtain ⟨t, ht, -⟩ := exists_of_map_eq_ok nestedQuantifiers_lower
  exact ⟨hnames, t, ht, Predicate.readAll_of_lower hnames ht⟩

end GuardedCommand
