import SchemaCast.Misuse
import SchemaCast.Rejection

namespace SchemaCast

/-- Why a cast gave no value. -/
inductive CastError where
  | rejected (rejection : Rejection)
  | misused (misuse : Misuse)

namespace CastError

/-- The error as seen from the container that holds the value; a misuse has no place. -/
def under (segment : String) : CastError → CastError
  | rejected r => rejected (r.under segment)
  | misused m => misused m

def rejection? : CastError → Option Rejection
  | rejected r => some r
  | misused _ => none

def message : CastError → String
  | rejected r => r.message
  | misused m => m.message

end CastError

abbrev CastResult (α : Type) := Except CastError α

/-- A cast of a value that may not have been supplied. -/
abbrev Caster := Option Value → CastResult Value

/-- A condition on values that a schema adds to its type. -/
abbrev Predicate := Value → Bool

/-- Rejects a value with an empty path. -/
def reject {α : Type} (rejection : Rejection) : CastResult α :=
  .error (.rejected rejection)

namespace CastResult

/-- The result as seen from the container that holds the value under the segment. -/
def under {α : Type} (segment : String) : CastResult α → CastResult α
  | .ok a => .ok a
  | .error e => .error (e.under segment)

/-- Whether a cast succeeded; a misuse is not an answer. -/
def accepted {α : Type} : CastResult α → Except Misuse Bool
  | .ok _ => .ok true
  | .error (.rejected _) => .ok false
  | .error (.misused m) => .error m

end CastResult

end SchemaCast
