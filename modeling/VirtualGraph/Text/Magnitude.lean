import VirtualGraph.Text.Numeral

/-!
# The range of floating-point numbers

A number with a fraction or an exponent is kept with 53 binary digits, and one that is too large to
be kept so is infinite. The values of such numbers are never used here, but a format may refuse a
number that is infinite, so the range is decided by exact arithmetic.
-/

namespace VirtualGraph.Text

/-- The least number that is rounded to infinity, halfway between the largest number that is kept
and the power of two above it. -/
def infiniteFrom : Nat := (Nat.pow 2 54 - 1) * Nat.pow 2 970

/-- The nearest number with 53 binary digits; of two that are equally near, the even one. -/
def nearestBinary (n : Nat) : Nat :=
  let unit := Nat.pow 2 (n.log2 - 52)
  let q := n / unit
  let r := n % unit
  if unit < 2 * r ∨ (unit = 2 * r ∧ q % 2 = 1) then (q + 1) * unit else q * unit

/-- Whether a number times a power of ten is finite, when both factors are rounded before they are
multiplied. The largest power of ten that can be a factor is the 308th. -/
def isProductFinite (n : Nat) (exponent : Int) : Bool :=
  n == 0 || exponent < 0
    || (exponent ≤ 308
      && nearestBinary n * nearestBinary (Nat.pow 10 exponent.toNat) < infiniteFrom)

/-- Whether digits times a power of ten are finite, when the number is rounded once. -/
def isDecimalFinite (digits : List Char) (exponent : Int) : Bool :=
  let digits := digits.dropWhile (· == '0')
  let places : Int := digits.length + exponent
  if digits.isEmpty || places ≤ 308 then true
  else if 309 < places then false
  else if 0 ≤ exponent then digitsValue digits * Nat.pow 10 exponent.toNat < infiniteFrom
  else digitsValue digits < infiniteFrom * Nat.pow 10 (-exponent).toNat

/-- Appends decimal digits to a number as long as it fits in 64 bits: the number, and how many
digits were appended. -/
def appendDigits (n : Nat) : List Char → Nat × Nat
  | [] => (n, 0)
  | c :: cs =>
    let next := 10 * n + (c.toNat - 0x30)
    if next < Nat.pow 2 64 then
      let (m, k) := appendDigits next cs
      (m, k + 1)
    else (n, 0)

end VirtualGraph.Text
