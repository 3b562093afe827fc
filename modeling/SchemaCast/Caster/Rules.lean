import SchemaCast.Caster.Basic

namespace SchemaCast

/-- What a schema says about its value besides its type and its members. -/
structure Rules where
  /-- The value is coerced by its type instead of only tested. -/
  casts : Bool := false
  /-- Absence and null are accepted and give null. -/
  optional : Bool := false
  /-- The value that stands in for an absent one. A value that a function of the host produces for
  each cast is represented by what it produces, which is taken to be the same every time. -/
  default? : Option Value := none
  /-- Predicates on the value before its members are looked at. -/
  checks : List Predicate := []
  /-- Further predicates of that kind, which come after those. -/
  valueChecks : List Predicate := []
  /-- Predicates on the value after its members have been cast. -/
  contentChecks : List Predicate := []

namespace Rules

/-- A value passes if every predicate holds of it. -/
def check (predicates : List Predicate) (v : Value) : CastResult Unit :=
  if predicates.all (· v) then .ok () else reject (.invalidValue v)

/-- The value to be cast: what was supplied, or the default. Absence and null are no value. -/
def given? (rules : Rules) (input : Option Value) : Option Value :=
  match input.or rules.default? with
  | some .null => none
  | given => given

/-- Takes a value through the type: by coercion, or unchanged if the test accepts it. -/
def throughType (rules : Rules) (cast : Caster) (test : Value → Except Misuse Bool) (v : Value) :
    CastResult Value :=
  if rules.casts then cast (some v)
  else match test v with
    | .ok true => .ok v
    | .ok false => reject (.invalidValue v)
    | .error m => .error (.misused m)

/-- Applies the rules around the cast and test of a type and the treatment of keys and members. -/
def apply (rules : Rules) (cast : Caster) (test : Value → Except Misuse Bool)
    (keys members : Value → CastResult Value) : Caster := fun input =>
  match rules.given? input with
  | none => if rules.optional then .ok .null else reject .missingValue
  | some v => do
    let v ← rules.throughType cast test v
    check (rules.checks ++ rules.valueChecks) v
    let v ← keys v
    let v ← members v
    check rules.contentChecks v
    return v

end Rules

end SchemaCast
