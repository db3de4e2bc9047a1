import TypeErasure.Byte

/-!
# Decimal numbers and their range

A decimal number is held as a significand and a power of ten. The significand is a word of 64 bits:
`appendDigits` takes the digits of a number from the left as long as it stays one, and the digits
that are left over count only as places.

A number stands for a binary floating point number of 64 bits, the product of the significand and
the power of ten, where both factors and the product are rounded to 53 significant bits.
`Decimal.overflows` says that the product is out of range. Near the end of the range, that is not
the same as to say that the number itself is.
-/

namespace TypeErasure

/-- A decimal number `significand * 10 ^ exponent`, without its sign. -/
structure Decimal where
  significand : Nat
  exponent : Int
  deriving DecidableEq, Repr

/-! ### Digits -/

/-- The value of a digit. -/
def Byte.digitValue (c : Byte) : Nat :=
  c.toNat - 48

/-- The number that a list of digits denotes. -/
def digitsValue (digits : List Byte) : Nat :=
  digits.foldl (fun n c => 10 * n + c.digitValue) 0

/-- Significands are below this bound. -/
def significandBound : Nat :=
  Nat.pow 2 64

/-- Appends digits to the significand `n`, up to the first that does not fit. Gives the significand
and how many digits it took. -/
def appendDigits (n : Nat) : List Byte → Nat × Nat
  | [] => (n, 0)
  | c :: digits =>
    let next := 10 * n + c.digitValue
    if next < significandBound then
      let (m, taken) := appendDigits next digits
      (m, taken + 1)
    else (n, 0)

namespace Decimal

/-- **The decimal number** with the given digits before and behind the point, times ten to the
`exponent`. A digit before the point that the significand does not take raises the exponent by one,
and a digit behind the point that it takes lowers it by one. -/
def ofDigits (whole fraction : List Byte) (exponent : Int) : Decimal :=
  let (n, taken) := appendDigits 0 whole
  let (m, places) := appendDigits n fraction
  ⟨m, exponent + (whole.length - taken : Nat) - places⟩

end Decimal

/-! ### Range -/

/-- The last of the 53 significant bits of `n`. -/
def lastBit (n : Nat) : Nat :=
  Nat.pow 2 (n.log2 - 52)

/-- The nearest number of at most 53 significant bits. Of two that are equally near it is the one
that is an even multiple of the last bit. -/
def roundBits (n : Nat) : Nat :=
  let units := n / lastBit n
  let excess := n % lastBit n
  if lastBit n < 2 * excess ∨ (lastBit n = 2 * excess ∧ units % 2 = 1) then
    (units + 1) * lastBit n
  else units * lastBit n

/-- The least number that does not round to one in range: halfway from the largest number in range
to two to the `1024`. -/
def overflowBound : Nat :=
  Nat.pow 2 1024 - Nat.pow 2 970

/-- The largest exponent of a power of ten in range. -/
def maxExponent : Nat :=
  308

/-- **The number is out of range.** With a power of ten that is out of range itself, every number
but zero is. A negative exponent takes a significand, which is in range, to a smaller number. -/
def Decimal.overflows (d : Decimal) : Bool :=
  match d.exponent with
  | .ofNat n =>
    d.significand != 0 &&
      (maxExponent < n || overflowBound ≤ roundBits d.significand * roundBits (Nat.pow 10 n))
  | .negSucc _ => false

end TypeErasure
