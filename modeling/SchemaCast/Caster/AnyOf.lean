import SchemaCast.Caster.Basic

namespace SchemaCast.Caster

/-- The first caster that does not reject the input decides. If all reject it, the input itself is
not valid. -/
def anyOf : List Caster → Caster
  | [], input => reject ⟨[], .invalidValue input⟩
  | child :: others, input =>
    match child input with
    | .error (.rejected _) => anyOf others input
    | result => result

end SchemaCast.Caster
