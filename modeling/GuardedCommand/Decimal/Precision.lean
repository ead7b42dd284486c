/-! # Double precision

The numbers of double precision have at most 53 significant binary digits and lie below `2 ^ 1024`.

* `roundDouble`: the nearest such number, regardless of its size; of two nearest ones the even one.
* `doubleOverflow`: from here on the nearest number would be `2 ^ 1024`, which is out of range.
-/

namespace GuardedCommand

/-- The distance of neighbouring numbers of double precision next to a natural number. -/
def doubleUnit (n : Nat) : Nat := Nat.pow 2 (n.log2 + 1 - 53)

/-- A natural number rounded to 53 significant binary digits, a tie to the even neighbour. -/
def roundDouble (n : Nat) : Nat :=
  let unit := doubleUnit n
  let below := n / unit
  let excess := 2 * (n % unit)
  if unit < excess ∨ (excess = unit ∧ below % 2 = 1) then (below + 1) * unit else below * unit

/-- The least natural number that is rounded out of the range of double precision. -/
def doubleOverflow : Nat := Nat.pow 2 1024 - Nat.pow 2 970

end GuardedCommand
