import SchemaCast.Number.Nearest

namespace SchemaCast

namespace Number

/-- The magnitude nearest to the product of two finite ones. -/
def product (a b : Nat) : Nat :=
  nearestToQuotient (unitsOf a * unitsOf b) (unitsPerOne * unitsPerOne)

/-- The magnitude nearest to the quotient of two finite ones. -/
def quotient (a b : Nat) : Nat :=
  nearestToQuotient (unitsOf a) (unitsOf b)

/-- The exponent of the largest power of ten below infinity. -/
def largestPower : Nat := 308

/-- The magnitude nearest to a power of ten. -/
def powerOfTen (exponent : Nat) : Nat :=
  nearestToQuotient (Nat.pow 10 exponent) 1

end Number

/-- The number `significand * 10 ^ exponent`, with a significand of sixty-four bits. -/
structure Scaled where
  significand : UInt64
  exponent : Int
  deriving DecidableEq

namespace Scaled

/-- A significand with a further digit, if sixty-four bits hold it. -/
def extend? (significand : UInt64) (digit : Char) : Option UInt64 :=
  let extended := significand.toNat * 10 + Decimal.digitValue digit
  if extended < UInt64.size then some (UInt64.ofNat extended) else none

/-- A significand with the digits in front that it can take, and the digits that are left from
the first one on that it cannot. -/
def extend (significand : UInt64) : List Char → UInt64 × List Char
  | [] => (significand, [])
  | digit :: rest =>
    (extend? significand digit).elim (significand, digit :: rest) (extend · rest)

/-- The number with the given digits before and after the point, times a power of ten. Digits
before the point that are left count as zeros; digits after it that are left do not count. -/
def ofParts (whole fraction : List Char) (exponent : Int) : Scaled :=
  let (wholeSignificand, zeros) := extend 0 whole
  let (significand, ignored) := extend wholeSignificand fraction
  ⟨significand, exponent + zeros.length - (fraction.length - ignored.length)⟩

/-- A magnitude multiplied by a power of ten. -/
def raise (magnitude exponent : Nat) : Nat :=
  if Number.largestPower < exponent then Number.infinityMagnitude
  else Number.product magnitude (Number.powerOfTen exponent)

/-- A magnitude of at most `2 ^ 64` divided by a power of ten, in two steps where one power is too
large for the doubles. What two of the largest powers cannot divide is less than half a unit. -/
def lower (magnitude exponent : Nat) : Nat :=
  let largest := Number.largestPower
  if exponent ≤ largest then
    Number.quotient magnitude (Number.powerOfTen exponent)
  else if exponent ≤ 2 * largest then
    Number.quotient (Number.quotient magnitude (Number.powerOfTen largest))
      (Number.powerOfTen (exponent - largest))
  else
    0

/-- The magnitude that scaling gives; zero is zero at every scale. Every step rounds, so this can
lie beside the nearest magnitude. -/
def magnitude (s : Scaled) : Nat :=
  let significand := Number.nearestToQuotient s.significand.toNat 1
  if s.significand = 0 then
    0
  else
    match s.exponent with
    | .ofNat e => raise significand e
    | .negSucc e => lower significand (e + 1)

/-- The double that scaling gives, with a sign. -/
def toNumber (negative : Bool) (s : Scaled) : Number :=
  Number.ofMagnitude negative s.magnitude

end Scaled

end SchemaCast
