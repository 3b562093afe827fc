import SchemaCast.Caster.Keys

namespace SchemaCast.Caster

/-- The caster declared for a key. -/
def declared? (declared : List (String × Caster)) (key : String) : Option Caster :=
  (declared.find? fun entry => entry.1 == key).map Prod.snd

/-- Casts the present members in order. A key has to be a declared text. -/
def castPresent (declared : List (String × Caster)) :
    List (Value × Value) → CastResult (List (String × Value))
  | [] => .ok []
  | (.text key, v) :: entries =>
    match declared? declared key with
    | none => reject (.extraKey (.text key))
    | some child => do
      let w ← (child (some v)).under key
      let rest ← castPresent declared entries
      return (key, w) :: rest
  | (key, _) :: _ => reject (.extraKey key)

/-- Casts the absence of a declared key. If nothing may stand for the value, the key is missing
from the container. -/
def castAbsentKey (child : Caster) (key : String) : CastResult Value :=
  match child none with
  | .error (.rejected ⟨_, .missingValue⟩) => reject (.missingKey key)
  | result => result.under key

/-- Casts the absence of those declared keys that are not among the present ones. -/
def castAbsent (present : List String) :
    List (String × Caster) → CastResult (List (String × Value))
  | [] => .ok []
  | (key, child) :: declared =>
    if present.contains key then castAbsent present declared
    else do
      let w ← castAbsentKey child key
      let rest ← castAbsent present declared
      return (key, w) :: rest

/-- Casts all entries, present and absent. -/
def castDeclared (declared : List (String × Caster)) (entries : List (Value × Value)) :
    CastResult (List (String × Value)) := do
  let present ← castPresent declared entries
  let absent ← castAbsent (present.map Prod.fst) declared
  return present ++ absent

/-- The caster of records and maps with the declared keys; the kind of container is kept. -/
def entries (declared : List (String × Caster)) : Caster
  | some (.record members) => do
    let fields ← castDeclared declared (textKeyed members.entries)
    return .ofFields fields
  | some (.map members) => do
    let fields ← castDeclared declared members.entries
    return .ofEntries (textKeyed fields)
  | some v => reject (.invalidValue v)
  | none => reject .missingValue

end SchemaCast.Caster
