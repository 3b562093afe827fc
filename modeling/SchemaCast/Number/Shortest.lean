import SchemaCast.Number.Nearest

namespace SchemaCast

/-- Where an exact half goes: to the larger neighbour, or to the one with an even last digit. -/
inductive Tie where
  | up
  | even
  deriving DecidableEq

namespace Decimal

/-- The exact value of a finite magnitude: a unit is `5 ^ 1074` times `10 ^ -1074`. -/
def exact (magnitude : Nat) : Decimal :=
  ⟨Number.unitsOf magnitude * Nat.pow 5 1074, -1074⟩

/-- How many decimal digits a number has. -/
def digitCount (n : Nat) : Nat :=
  (Nat.toDigits 10 n).length

/-- Of two neighbours on a grid the one that reads back as the magnitude, if there is one, and of
two that do the nearer. The exact value lies `offset` above the lower one, out of a whole `step`. -/
def readingBack? (tie : Tie) (magnitude : Nat) (lower upper : Decimal) (offset step : Nat) :
    Option Decimal :=
  match lower.nearestMagnitude == magnitude, upper.nearestMagnitude == magnitude with
  | true, false => some lower
  | false, true => some upper
  | false, false => none
  | true, true =>
    if 2 * offset < step then some lower
    else if step < 2 * offset then some upper
    else match tie with
      | .up => some upper
      | .even => some (if lower.coefficient % 2 = 0 then lower else upper)

/-- The neighbour of the exact value on the grid of `digits` significant digits that reads back
as the magnitude, if there is one. -/
def neighbour? (tie : Tie) (magnitude length digits : Nat) : Option Decimal :=
  let whole := (exact magnitude).coefficient
  let step := Nat.pow 10 (length - digits)
  let scale : Int := (length - digits : Nat) - 1074
  readingBack? tie magnitude ⟨whole / step, scale⟩ ⟨whole / step + 1, scale⟩ (whole % step) step

/-- The digits of a decimal number without the zeros at their end, which count as powers of ten. -/
def trimmedDigits (d : Decimal) : List Char × Int :=
  let reversed := (Nat.toDigits 10 d.coefficient).reverse
  let zeros := reversed.takeWhile (· == '0')
  ((reversed.dropWhile (· == '0')).reverse, d.exponent + zeros.length)

/-- The shortest decimal number that reads back as a finite magnitude. It is on the first grid on
which a neighbour of the exact value does so, from one digit to seventeen. -/
def shortest (tie : Tie) (magnitude : Nat) : Decimal :=
  let length := digitCount (exact magnitude).coefficient
  ((List.range' 1 17).findSome? (neighbour? tie magnitude length)).getD (exact magnitude)

end Decimal

end SchemaCast
