import GuardedCommand.Decimal.Basic

/-! # Numbers, truth values and dates of a configuration text

Only whether a word is one of them matters, and which of the two: a number or truth value, or a
date.
-/

namespace GuardedCommand.Toml

/-- Digits of a kind, with single underscores between them. -/
def isDigitGroup (isDigit : Char → Bool) (cs : List Char) : Bool :=
  let groups := cs.splitOn '_'
  groups.all fun g => !g.isEmpty && g.all isDigit

/-- Whether a character is a hexadecimal digit. -/
def isHexDigit (c : Char) : Bool :=
  c.isDigit || ('a' ≤ c && c ≤ 'f') || ('A' ≤ c && c ≤ 'F')

/-- The value of digits in a base; underscores do not count. -/
def digitsIn (base : Nat) (cs : List Char) : Nat :=
  let digit (c : Char) : Nat :=
    if c.isDigit then c.toNat - '0'.toNat
    else if 'a' ≤ c then c.toNat - 'a'.toNat + 10
    else c.toNat - 'A'.toNat + 10
  (cs.filter (· ≠ '_')).foldl (fun n c => base * n + digit c) 0

/-- Whether a decimal group has no zero at the start, unless it is all. -/
def hasNoLeadingZero : List Char → Bool
  | ['0'] => true
  | '0' :: _ => false
  | _ => true

/-- A word without its sign. -/
def dropSign : List Char → List Char
  | '+' :: cs => cs
  | '-' :: cs => cs
  | cs => cs

/-- Whether a word is a decimal integer without a sign. -/
def isDecimal (cs : List Char) : Bool :=
  isDigitGroup Char.isDigit cs && hasNoLeadingZero cs

/-- Whether a word is an integer of 64 bits. -/
def isInteger (cs : List Char) : Bool :=
  match cs with
  | '0' :: 'x' :: ds => isDigitGroup isHexDigit ds && digitsIn 16 ds < Nat.pow 2 63
  | '0' :: 'o' :: ds => isDigitGroup (fun c => '0' ≤ c && c ≤ '7') ds && digitsIn 8 ds < Nat.pow 2 63
  | '0' :: 'b' :: ds => isDigitGroup (fun c => c == '0' || c == '1') ds && digitsIn 2 ds < Nat.pow 2 63
  | '-' :: ds => isDecimal ds && digitsIn 10 ds ≤ Nat.pow 2 63
  | cs => isDecimal (dropSign cs) && digitsIn 10 (dropSign cs) < Nat.pow 2 63

/-- Whether a word is the exponent of a number, after its mark. -/
def isExponent (cs : List Char) : Bool :=
  isDigitGroup Char.isDigit (dropSign cs)

/-- Whether a word is written as a number with a fraction or an exponent, after its sign. -/
def isFractional (cs : List Char) : Bool :=
  let whole := cs.takeWhile fun c => c.isDigit || c == '_'
  let isMark (c : Char) : Bool := c == 'e' || c == 'E'
  isDecimal whole &&
    match cs.drop whole.length with
    | '.' :: rest =>
      let fraction := rest.takeWhile fun c => c.isDigit || c == '_'
      isDigitGroup Char.isDigit fraction &&
        match rest.drop fraction.length with
        | [] => true
        | c :: cs => isMark c && isExponent cs
    | c :: cs => isMark c && isExponent cs
    | [] => false

/-- Whether a number with a fraction or an exponent is too large. Negative ones are not. -/
def isOutOfRange (cs : List Char) : Bool :=
  match Decimal.read ((match cs with | '+' :: ds => ds | ds => ds).filter (· ≠ '_')) with
  | some d => !d.negative && d.isOutOfRange
  | none => false

/-- Whether a word is a number with a fraction or an exponent, or one of `inf` and `nan`. -/
def isReal (cs : List Char) : Bool :=
  let body := dropSign cs
  body = "inf".toList || body = "nan".toList || (isFractional body && !isOutOfRange cs)

/-- The value of a word of exactly so many digits. -/
def digits? (count : Nat) (cs : List Char) : Option Nat :=
  if cs.length = count ∧ cs.all Char.isDigit then some (digitsIn 10 cs) else none

/-- The number of days of a month. -/
def daysIn (year month : Nat) : Nat :=
  if month = 2 then
    if year % 4 = 0 ∧ (year % 100 ≠ 0 ∨ year % 400 = 0) then 29 else 28
  else if month = 4 ∨ month = 6 ∨ month = 9 ∨ month = 11 then 30
  else 31

/-- Whether a word is a date such as `1979-05-27`. -/
def isDate (cs : List Char) : Bool :=
  match cs.splitOn '-' with
  | [y, m, d] =>
    match digits? 4 y, digits? 2 m, digits? 2 d with
    | some y, some m, some d => 1 ≤ m && m ≤ 12 && 1 ≤ d && d ≤ daysIn y m
    | _, _, _ => false
  | _ => false

/-- Whether a word is a time of a day such as `07:32:00.5`. -/
def isTime (cs : List Char) : Bool :=
  match cs.splitOn ':' with
  | [h, m, s] =>
    let seconds := s.takeWhile (· ≠ '.')
    let fraction := match s.dropWhile (· ≠ '.') with
      | [] => true
      | _ :: ds => !ds.isEmpty && ds.all Char.isDigit
    match digits? 2 h, digits? 2 m, digits? 2 seconds with
    | some h, some m, some s => h ≤ 23 && m ≤ 59 && s ≤ 60 && fraction
    | _, _, _ => false
  | _ => false

/-- Whether a word is a distance from universal time such as `-07:00`, after its sign. -/
def isOffset (cs : List Char) : Bool :=
  match cs.splitOn ':' with
  | [h, m] =>
    match digits? 2 h, digits? 2 m with
    | some h, some m => h ≤ 23 && m ≤ 59
    | _, _ => false
  | _ => false

/-- Whether a word is a time with or without a distance from universal time, which is written out or
a single `Z`. -/
def isZonedTime (cs : List Char) : Bool :=
  let isZoneMark (c : Char) : Bool := c == '+' || c == '-' || c == 'Z' || c == 'z'
  let time := cs.takeWhile fun c => !isZoneMark c
  isTime time &&
    match cs.dropWhile fun c => !isZoneMark c with
    | [] => true
    | '+' :: offset | '-' :: offset => isOffset offset
    | zone => zone.length == 1

/-- Whether a word is a date, a time or both with a `T` between. -/
def isMoment (cs : List Char) : Bool :=
  isDate cs || isTime cs ||
    (isDate (cs.take 10) &&
      match cs.drop 10 with
      | 'T' :: time | 't' :: time => isZonedTime time
      | _ => false)

/-- Whether a word is a truth value. -/
def isTruth (cs : List Char) : Bool :=
  cs = "true".toList || cs = "false".toList

/-- Whether a word is a number or a truth value. -/
def isScalar (cs : List Char) : Bool :=
  isTruth cs || isInteger cs || isReal cs

end GuardedCommand.Toml
