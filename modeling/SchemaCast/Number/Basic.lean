namespace SchemaCast

/-- A double, as its bit pattern. -/
structure Number where
  bits : UInt64
  deriving DecidableEq

namespace Number

/-- The sign bit of a pattern. -/
def signBit : Nat := Nat.pow 2 63

/-- The magnitudes between a power of two and the next. -/
def binade : Nat := Nat.pow 2 52

/-- The units in one, a unit being `2 ^ -1074`. -/
def unitsPerOne : Nat := Nat.pow 2 1074

/-- The magnitude of the infinities; larger magnitudes are not numbers. -/
def infinityMagnitude : Nat := 0x7FF * binade

/-- The number with the given sign and magnitude. -/
def ofMagnitude (negative : Bool) (magnitude : Nat) : Number :=
  ⟨UInt64.ofNat (if negative then magnitude + signBit else magnitude)⟩

/-- The bit pattern without its sign. -/
def magnitude (n : Number) : Nat :=
  n.bits.toNat % signBit

/-- The sign bit is set; zero and the patterns that are not numbers have a sign too. -/
def isNegative (n : Number) : Bool :=
  signBit ≤ n.bits.toNat

def isNaN (n : Number) : Bool :=
  infinityMagnitude < n.magnitude

def isInfinite (n : Number) : Bool :=
  n.magnitude == infinityMagnitude

def isFinite (n : Number) : Bool :=
  n.magnitude < infinityMagnitude

/-- Both zeros are zero. -/
def isZero (n : Number) : Bool :=
  n.magnitude == 0

def zero : Number := ofMagnitude false 0

def infinity : Number := ofMagnitude false infinityMagnitude

/-- The units in a finite magnitude. Steps between neighbours double with each binade, so a
magnitude is a significand below `2 ^ 53` and a number of doublings. -/
def unitsOf (magnitude : Nat) : Nat :=
  let doublings := magnitude / binade - 1
  (magnitude - doublings * binade) * Nat.pow 2 doublings

/-- The units in the absolute value of a number. -/
def units (n : Number) : Nat :=
  unitsOf n.magnitude

/-- The whole number that a number is, where it is one of absolute value below `2 ^ 53`. -/
def wholeNumber? (n : Number) : Option Int :=
  if n.isFinite && n.units % unitsPerOne == 0 && n.units / unitsPerOne < 2 * binade then
    let whole : Int := Int.ofNat (n.units / unitsPerOne)
    some (if n.isNegative then -whole else whole)
  else
    none

/-- Numeric equality: what is not a number equals nothing, and the two zeros are equal. -/
def same (a b : Number) : Bool :=
  !a.isNaN && !b.isNaN && (a.bits == b.bits || (a.isZero && b.isZero))

instance : BEq Number := ⟨same⟩

end Number

end SchemaCast
