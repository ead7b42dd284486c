import GuardedCommand.Decimal.Precision

/-! # Decimal numbers

A number is written as an optional minus sign, digits without superfluous zeros, an optional
fraction and an optional exponent.

* `Decimal.read`: the parts of a written number.
* `Decimal.isOutOfRange`: whether the number nearest to it is beyond double precision.
-/

namespace GuardedCommand

/-- The parts of a number as it is written: `±whole.fraction` times ten to the `exponent`. -/
structure Decimal where
  /-- Whether the number has a minus sign. -/
  negative : Bool
  /-- The digits before the point. -/
  whole : List Char
  /-- The digits after the point, if there is one. -/
  fraction : Option (List Char)
  /-- The exponent, if there is one. -/
  exponent : Option Int

namespace Decimal

/-- The number a sequence of decimal digits stands for. -/
def digitsValue (cs : List Char) : Nat :=
  cs.foldl (fun n c => 10 * n + (c.toNat - '0'.toNat)) 0

/-- A decimal digit is one of the ten characters from zero on. -/
theorem isDigit_iff (c : Char) : c.isDigit = true ↔ 48 ≤ c.toNat ∧ c.toNat ≤ 57 := by
  simp only [Char.isDigit, Bool.and_eq_true, decide_eq_true_eq, ge_iff_le, UInt32.le_iff_toNat_le]
  exact Iff.rfl

/-- Splits off the leading digits; there has to be one. -/
def takeDigits (cs : List Char) : Option (List Char × List Char) :=
  match cs.takeWhile Char.isDigit with
  | [] => none
  | digits => some (digits, cs.dropWhile Char.isDigit)

/-- Reads an exponent after its mark: an optional sign and digits up to the end. -/
def readExponent (cs : List Char) : Option Int :=
  let (negative, digits) :=
    match cs with
    | '-' :: rest => (true, rest)
    | '+' :: rest => (false, rest)
    | _ => (false, cs)
  match takeDigits digits with
  | some (ds, []) =>
    let n : Int := digitsValue ds
    some (if negative then -n else n)
  | _ => none

/-- Reads the end of a number: an exponent, or nothing. -/
def readTail (negative : Bool) (whole : List Char) (fraction : Option (List Char)) :
    List Char → Option Decimal
  | [] => some ⟨negative, whole, fraction, none⟩
  | c :: rest =>
    if c = 'e' ∨ c = 'E' then do
      let e ← readExponent rest
      some ⟨negative, whole, fraction, some e⟩
    else none

/-- Reads a number without its sign. -/
def readUnsigned (negative : Bool) (cs : List Char) : Option Decimal := do
  let (whole, rest) ← takeDigits cs
  if 1 < whole.length ∧ whole.head? = some '0' then none
  else
    match rest with
    | '.' :: rest => do
      let (fraction, rest) ← takeDigits rest
      readTail negative whole (some fraction) rest
    | rest => readTail negative whole none rest

/-- Reads a number. -/
def read : List Char → Option Decimal
  | '-' :: rest => readUnsigned true rest
  | cs => readUnsigned false cs

/-- The greatest exponent of a power of ten in the range of double precision. -/
def greatestPower : Int := 308

/-- Whether a number without its sign is rounded out of the range of double precision. One of few
digits before the point is not, and one with a great power of ten is, without looking further. -/
def isOutOfRange (d : Decimal) : Bool :=
  let digits := d.whole ++ d.fraction.getD []
  let m := digitsValue digits
  let e := d.exponent.getD 0 - (d.fraction.getD []).length
  if m = 0 ∨ digits.length + e ≤ greatestPower then false
  else if greatestPower < e then true
  else doubleOverflow * Nat.pow 10 (-e).toNat ≤ m * Nat.pow 10 e.toNat

end Decimal

end GuardedCommand
