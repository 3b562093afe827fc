import SchemaCast.Number.Basic

namespace SchemaCast

/-- The decimal number `coefficient * 10 ^ exponent`. -/
structure Decimal where
  coefficient : Nat
  exponent : Int
  deriving DecidableEq

namespace Number

/-- Division to the nearest whole number, a half going to the even one. -/
def divideToEven (numerator denominator : Nat) : Nat :=
  let quotient := numerator / denominator
  let remainder := numerator % denominator
  if 2 * remainder < denominator then quotient
  else if denominator < 2 * remainder then quotient + 1
  else quotient + quotient % 2

/-- The magnitude nearest to a quotient. The quotient in units is rounded to a significand of at
most fifty-three bits; the carry of a significand that rounds up to `2 ^ 53` is the next binade. -/
def nearestToQuotient (numerator denominator : Nat) : Nat :=
  let scaled := numerator * unitsPerOne
  let doublings := (scaled / denominator).log2 - 52
  min (divideToEven scaled (denominator * Nat.pow 2 doublings) + doublings * binade)
    infinityMagnitude

end Number

namespace Decimal

/-- The magnitude nearest to a decimal number. Two bounds on the exponent keep the powers of ten
small: above the first every positive number is infinite, below the second every number is less
than half a unit. -/
def nearestMagnitude (d : Decimal) : Nat :=
  if d.coefficient = 0 then
    0
  else
    match d.exponent with
    | .ofNat e =>
      if 400 < e then Number.infinityMagnitude
      else Number.nearestToQuotient (d.coefficient * Nat.pow 10 e) 1
    | .negSucc e =>
      if d.coefficient.log2 + 1080 < 3 * (e + 1) then 0
      else Number.nearestToQuotient d.coefficient (Nat.pow 10 (e + 1))

/-- The double nearest to a decimal number with a sign. -/
def nearest (negative : Bool) (d : Decimal) : Number :=
  Number.ofMagnitude negative d.nearestMagnitude

/-- The value of a decimal digit. -/
def digitValue (c : Char) : Nat := c.toNat - '0'.toNat

/-- The number that decimal digits write. -/
def ofDigits (digits : List Char) : Nat :=
  digits.foldl (fun value c => value * 10 + digitValue c) 0

/-- The decimal number with the given digits before and after the point, times a power of ten. -/
def ofParts (whole fraction : List Char) (exponent : Int) : Decimal :=
  ⟨ofDigits (whole ++ fraction), exponent - fraction.length⟩

end Decimal

namespace Number

/-- The double nearest to a whole number. -/
def ofInt (i : Int) : Number :=
  Decimal.nearest (decide (i < 0)) ⟨i.natAbs, 0⟩

end Number

end SchemaCast
