import GuardedCommand.Proofs.Meaning
import GuardedCommand.Prover.Term

/-! # Meaning of prover terms

The prover gives a fixed meaning to some words and leaves the others open. In a state a term holds
or not as a formula, and it has a value as anything else.

* `Prover.connective?`, `Prover.comparison?`, `Prover.quantifier?`, `Prover.operation?`: what the
  prover's own words mean; `Prover.words` lists them.
* `Prover.numeral?`: digits stand for a number.
* `Term.Holds`, `Term.value`: the meaning of a term. Words that are not the prover's own have the
  meaning that an `Interpretation` gives to called functions and relations.

The prover computes with integers. Where it wants an integer and finds a map, the map counts as `0`,
as it does in formulas. The patterns of a quantifier tell the prover where to look and mean nothing.

What a quantifier ranges over depends on where it stands. In the term of a formula it ranges over
the integers, as the quantifiers of formulas do; this is the reading of `Prover.quantifier?` and so
of `Term.Holds`. The outermost `FORALL` of a background definition binds arrays and matrices as well
and ranges over all values: `Term.TrueDefinition` reads it so, and does not use `Prover.quantifier?`
for it. No background definition has a quantifier further inside.
-/

namespace GuardedCommand

namespace Prover

/-- The formula that a word makes of other formulas. -/
def connective? : String → Option (List Prop → Prop)
  | "NOT" => some fun
    | [p] => ¬ p
    | _ => False
  | "AND" => some fun ps => ps.foldr And True
  | "OR" => some fun ps => ps.foldr Or False
  | "IMPLIES" => some fun
    | [p, q] => p → q
    | _ => False
  | "IFF" => some fun
    | [p, q] => p ↔ q
    | _ => False
  | _ => none

/-- The comparison of integers that a word stands for. -/
def comparison? : String → Option (Int → Int → Prop)
  | "EQ" => some fun m n => m = n
  | "NEQ" => some fun m n => m ≠ n
  | "<" => some fun m n => m < n
  | ">" => some fun m n => m > n
  | "<=" => some fun m n => m ≤ n
  | ">=" => some fun m n => m ≥ n
  | _ => none

/-- The quantification over the integers that a word stands for. -/
def quantifier? : String → Option ((Int → Prop) → Prop)
  | "FORALL" => some fun p => ∀ n, p n
  | "EXISTS" => some fun p => ∃ n, p n
  | _ => none

/-- The operation on values that a word stands for. -/
def operation? : String → Option (List Value → Value)
  | "+" => some fun
    | [v, w] => .int (v.toInt + w.toInt)
    | _ => .int 0
  | "-" => some fun
    | [v, w] => .int (v.toInt - w.toInt)
    | _ => .int 0
  | "*" => some fun
    | [v, w] => .int (v.toInt * w.toInt)
    | _ => .int 0
  | "select" => some fun
    | [v, i] => v.get i.toInt
    | _ => .int 0
  | "store" => some fun
    | [v, i, w] => v.set i.toInt w
    | _ => .int 0
  | _ => none

/-- The words that have a meaning of the prover's own. -/
def words : List String :=
  ["TRUE", "FALSE", "NOT", "AND", "OR", "IMPLIES", "IFF", "EQ", "NEQ", "<", ">", "<=", ">=",
    "FORALL", "PATS", "EXISTS", "+", "-", "*", "select", "store"]

/-- A comparison of two values. -/
def compare (c : Int → Int → Prop) : List Value → Prop
  | [v, w] => c v.toInt w.toInt
  | _ => False

/-- The number that a text of digits stands for. -/
def numeral? (text : String) : Option Nat :=
  if text.toList ≠ [] ∧ text.toList.all Char.isDigit then
    some (Nat.ofDigitChars 10 text.toList 0)
  else none

end Prover

namespace Term

mutual

/-- Whether a term holds as a formula. -/
def Holds (I : Interpretation) : Term → State → Prop
  | .atom text, _ => text = "TRUE"
  | .list (.atom f :: args), s =>
    match Prover.connective? f, Prover.comparison? f, Prover.quantifier? f with
    | .some join, _, _ => join (holdsAll I args s)
    | none, .some c, _ => Prover.compare c (valueAll I args s)
    | none, none, .some q =>
      match args with
      | [.list [.atom k], p] => q fun n => p.Holds I (Function.update s k (.int n))
      | [.list [.atom k], .list (.atom "PATS" :: _), p] =>
        q fun n => p.Holds I (Function.update s k (.int n))
      | _ => False
    | none, none, none => I.relation f (valueAll I args s)
  | .list _, _ => False

/-- Which of some terms hold as formulas. -/
def holdsAll (I : Interpretation) : List Term → State → List Prop
  | [], _ => []
  | t :: ts, s => t.Holds I s :: holdsAll I ts s

/-- The value of a term. -/
def value (I : Interpretation) : Term → State → Value
  | .atom text, s =>
    match Prover.numeral? text with
    | .some n => .int n
    | none => s text
  | .list (.atom f :: args), s =>
    match Prover.operation? f with
    | .some op => op (valueAll I args s)
    | none => I.function f (valueAll I args s)
  | .list _, _ => .int 0

/-- The values of some terms. -/
def valueAll (I : Interpretation) : List Term → State → List Value
  | [], _ => []
  | t :: ts, s => t.value I s :: valueAll I ts s

end

end Term

/-! ## Words -/

namespace Prover

/-- A word that is not the prover's own is none of its connectives, comparisons and quantifiers. -/
theorem eq_none_of_notMem_words {f : String} (h : f ∉ words) :
    connective? f = none ∧ comparison? f = none ∧ quantifier? f = none ∧ operation? f = none := by
  simp only [words, List.mem_cons, List.not_mem_nil, or_false, not_or] at h
  simp [connective?, comparison?, quantifier?, operation?, h]

/-- The digits of a number stand for the number. -/
theorem numeral?_toString (n : Nat) : numeral? (toString n) = some n := by
  have hlist : (toString n).toList = Nat.toDigits 10 n := by
    rw [Nat.toString_eq_repr, Nat.toList_repr]
  have hdigits : (Nat.toDigits 10 n).all Char.isDigit = true :=
    List.all_eq_true.mpr fun c hc => Nat.isDigit_of_mem_toDigits (by decide) (by decide) hc
  rw [numeral?, hlist, if_pos ⟨Nat.toDigits_ne_nil, hdigits⟩, Nat.ofDigitChars_ten_toDigits]

/-- A text that does not start with a digit is no number. -/
theorem numeral?_eq_none {text : String} {c : Char} {cs : List Char} (h : text.toList = c :: cs)
    (hc : c.isDigit = false) : numeral? text = none := by
  rw [numeral?, if_neg]
  rintro ⟨-, hall⟩
  rw [h, List.all_cons, hc] at hall
  cases hall

end Prover

/-! ## Composite terms -/

namespace Term

variable {I : Interpretation} {s : State}

/-- A connective joins what its arguments say. -/
theorem holds_of_connective {f : String} {join : List Prop → Prop}
    (h : Prover.connective? f = .some join) (ts : List Term) :
    (apply f ts).Holds I s ↔ join (holdsAll I ts s) := by
  rw [apply, Holds, h]

/-- A comparison compares the integers of its two arguments. -/
theorem holds_of_comparison {f : String} {c : Int → Int → Prop}
    (hf : Prover.connective? f = none) (h : Prover.comparison? f = .some c) (t u : Term) :
    (apply f [t, u]).Holds I s ↔ c (t.value I s).toInt (u.value I s).toInt := by
  rw [apply, Holds, hf, h]
  simp only [valueAll, Prover.compare]

/-- An operation is applied to the values of its arguments. -/
theorem value_of_operation {f : String} {op : List Value → Value}
    (h : Prover.operation? f = .some op) (ts : List Term) :
    (apply f ts).value I s = op (valueAll I ts s) := by
  rw [apply, value, h]

/-- A word that is not the prover's own, applied as a relation. -/
theorem holds_apply_of_notMem {f : String} (h : f ∉ Prover.words) (ts : List Term) :
    (apply f ts).Holds I s ↔ I.relation f (valueAll I ts s) := by
  obtain ⟨hconnective, hcomparison, hquantifier, -⟩ := Prover.eq_none_of_notMem_words h
  rw [apply, Holds, hconnective, hcomparison, hquantifier]

/-- A word that is not the prover's own, applied as a function. -/
theorem value_apply_of_notMem {f : String} (h : f ∉ Prover.words) (ts : List Term) :
    (apply f ts).value I s = I.function f (valueAll I ts s) := by
  rw [apply, value, (Prover.eq_none_of_notMem_words h).2.2.2]

end Term

end GuardedCommand
