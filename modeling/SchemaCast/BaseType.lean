import SchemaCast.Caster.Basic

namespace SchemaCast

/-- A named type without parts. Without a test, a value is of the type when its coercion
succeeds. -/
structure BaseType where
  name : String
  test? : Option Predicate := none
  coerce? : Option (Value → CastResult Value) := none

namespace BaseType

/-- Casting needs a coercion, and the coercion needs a value. -/
def cast (type : BaseType) : Caster := fun input =>
  match type.coerce?, input with
  | none, _ => .error (.misused (.notCastable type.name))
  | some _, none => reject .missingValue
  | some coerce, some v => coerce v

def test (type : BaseType) (v : Value) : Except Misuse Bool :=
  match type.test? with
  | some holds => .ok (holds v)
  | none => (type.cast (some v)).accepted

/-- The type of the objects of a class, which can only be tested. -/
def instanceOf (c : HostClass) : BaseType where
  name := "[class " ++ c.name ++ "]"
  test? := some fun v => v.object?.any (·.hostClass.identity == c.identity)

end BaseType

end SchemaCast
