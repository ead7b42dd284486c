import GuardedCommand.Decimal.Basic
import GuardedCommand.Json.Basic

/-! # JSON numbers

A number is an integer if it has neither fraction nor exponent, fits in 64 bits and is not negative
zero. Any other number is an integer significand times a power of ten, and it is too large if the
product of the two in double precision is.
-/

namespace GuardedCommand

namespace Decimal

/-- Appends digits to a significand as long as it fits in 64 bits, and counts them. -/
def extend (m : Nat) : List Char → Nat × Nat
  | [] => (m, 0)
  | c :: cs =>
    let longer := 10 * m + (c.toNat - '0'.toNat)
    if longer < Nat.pow 2 64 then
      let (m, taken) := extend longer cs
      (m, taken + 1)
    else (m, 0)

/-- The significand of at most 64 bits, and the exponent of the power of ten it is to be multiplied
with. Digits that do not fit count as zeros before the point, and not at all after it. -/
def scientific (d : Decimal) : Nat × Int :=
  let (m, taken) := extend 0 d.whole
  let (m, places) := extend m (d.fraction.getD [])
  (m, d.exponent.getD 0 + (d.whole.length - taken : Nat) - places)

/-- Whether a number is too large: its power of ten is, or the product of its significand and its
power of ten, both rounded to double precision. -/
def isTooLarge (d : Decimal) : Bool :=
  let (m, e) := d.scientific
  if m = 0 ∨ e < 0 then false
  else if greatestPower < e then true
  else doubleOverflow ≤ roundDouble m * roundDouble (Nat.pow 10 e.toNat)

/-- The number as an integer of at most 64 bits. -/
def toInt? (d : Decimal) : Option Int :=
  match d.fraction, d.exponent with
  | none, none =>
    let n : Int := digitsValue d.whole
    if d.negative then
      if 0 < n ∧ n ≤ Nat.pow 2 63 then some (-n) else none
    else if n < Nat.pow 2 64 then some n
    else none
  | _, _ => none

end Decimal

/-- Reads a number; one that is too large for double precision is unreadable. -/
def Json.readNumber (cs : List Char) : Option Json :=
  (Decimal.read cs).map fun d =>
    match d.toInt? with
    | some i => .num (.int i)
    | none => if d.isTooLarge then .unreadable else .num (.real (String.ofList cs))

end GuardedCommand
