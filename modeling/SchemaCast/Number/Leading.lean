import SchemaCast.Number.Nearest
import SchemaCast.Text.Blank

namespace SchemaCast.Number

/-- An optional sign at the front of a text, and what follows it. -/
def takeSign : List Char → Bool × List Char
  | '-' :: cs => (true, cs)
  | '+' :: cs => (false, cs)
  | cs => (false, cs)

/-- The digits at the front of a text, and what follows them. -/
def takeDigits (cs : List Char) : List Char × List Char :=
  (cs.takeWhile Char.isDigit, cs.dropWhile Char.isDigit)

/-- The exponent at the front of a text: the letter `e`, an optional sign and digits. Without
digits there is no exponent. -/
def takeExponent? : List Char → Option (Int × List Char)
  | c :: cs =>
    if c = 'e' ∨ c = 'E' then
      let (negative, unsigned) := takeSign cs
      match takeDigits unsigned with
      | ([], _) => none
      | (digits, rest) =>
        let size : Int := Int.ofNat (Decimal.ofDigits digits)
        some (if negative then -size else size, rest)
    else
      none
  | [] => none

/-- The exponent at the front of a text, which is zero where none is written. -/
def takeExponent (cs : List Char) : Int × List Char :=
  (takeExponent? cs).getD (0, cs)

/-- The digits before and after the point at the front of a text, one of them at least. -/
def takeMantissa? (cs : List Char) : Option (List Char × List Char × List Char) :=
  match takeDigits cs with
  | ([], '.' :: rest) =>
    match takeDigits rest with
    | ([], _) => none
    | (fraction, rest) => some ([], fraction, rest)
  | ([], _) => none
  | (whole, '.' :: rest) =>
    let (fraction, rest) := takeDigits rest
    some (whole, fraction, rest)
  | (whole, rest) => some (whole, [], rest)

/-- The unsigned number at the front of a text, as a magnitude. -/
def takeMagnitude? (cs : List Char) : Option (Nat × List Char) :=
  let name := "Infinity".toList
  if name.isPrefixOf cs then
    some (infinityMagnitude, cs.drop name.length)
  else
    (takeMantissa? cs).map fun (whole, fraction, rest) =>
      let (exponent, rest) := takeExponent rest
      ((Decimal.ofParts whole fraction exponent).nearestMagnitude, rest)

/-- The number at the front of a text, after blanks. -/
def ofLeading? (text : String) : Option Number :=
  let (negative, unsigned) := takeSign (Text.dropBlanks text.toList)
  (takeMagnitude? unsigned).map fun (magnitude, _) => ofMagnitude negative magnitude

end SchemaCast.Number
