import SchemaCast.Number.Shortest

namespace SchemaCast

/-- How finite numbers other than zero are written. A number whose first digit stands for
`10 ^ e` is written without exponent when `e` lies between the two bounds. -/
structure NumberLayout where
  leastPlace : Int
  greatestPlace : Int
  /-- Whole numbers without exponent end in `.0`. -/
  keepsPoint : Bool
  tie : Tie

namespace NumberLayout

/-- All places of a number, from the first digit or the one before the point. -/
def positional (layout : NumberLayout) (digits : List Char) (exponent : Int) : List Char :=
  let places := digits.length + exponent
  if 0 ≤ exponent then
    digits ++ List.replicate exponent.toNat '0' ++ if layout.keepsPoint then ['.', '0'] else []
  else if 0 < places then
    digits.take places.toNat ++ '.' :: digits.drop places.toNat
  else
    '0' :: '.' :: List.replicate (-places).toNat '0' ++ digits

/-- One digit, the others after a point, and an exponent that always has its sign. -/
def scientific (digits : List Char) (place : Int) : List Char :=
  let mantissa := match digits with
    | first :: second :: rest => first :: '.' :: second :: rest
    | _ => digits
  let sign := if place < 0 then '-' else '+'
  mantissa ++ 'e' :: sign :: Nat.toDigits 10 place.natAbs

/-- The text of a finite magnitude other than zero. -/
def magnitudeText (layout : NumberLayout) (magnitude : Nat) : List Char :=
  let (digits, exponent) := (Decimal.shortest layout.tie magnitude).trimmedDigits
  let place := digits.length + exponent - 1
  if layout.leastPlace ≤ place && place ≤ layout.greatestPlace then
    layout.positional digits exponent
  else
    scientific digits place

/-- The text of a finite number other than zero. -/
def write (layout : NumberLayout) (n : Number) : String :=
  String.ofList ((if n.isNegative then ['-'] else []) ++ layout.magnitudeText n.magnitude)

end NumberLayout

namespace Number

/-- Numbers in text have an exponent from `10 ^ 21` on and below `10 ^ -6`; whole numbers have no
point, and a half goes up. -/
def textLayout : NumberLayout := ⟨-6, 20, false, .up⟩

/-- The text form of a number. Both zeros are written `0`. -/
def text (n : Number) : String :=
  if n.isNaN then "NaN"
  else if n.isInfinite then (if n.isNegative then "-Infinity" else "Infinity")
  else if n.isZero then "0"
  else textLayout.write n

end Number

end SchemaCast
