import SchemaCast.Caster.Basic

namespace SchemaCast.Caster

/-- Casts a key. A rejected key is reported as such, with the rejection as cause. -/
def castKey (keys : Caster) (key : Value) : CastResult Value :=
  match keys (some key) with
  | .error (.rejected cause) => reject (.invalidKey key cause)
  | result => result

/-- Casts the keys of entries in order. -/
def castEntryKeys (keys : Caster) : List (Value × Value) → CastResult (List (Value × Value))
  | [] => .ok []
  | (key, v) :: entries => do
    let key ← castKey keys key
    let rest ← castEntryKeys keys entries
    return (key, v) :: rest

/-- The entries of a record, its names being text keys. -/
def textKeyed (fields : List (String × Value)) : List (Value × Value) :=
  fields.map fun (name, v) => (.text name, v)

/-- The fields of a record whose names are the texts of the keys. -/
def displayKeyed (entries : List (Value × Value)) : List (String × Value) :=
  entries.map fun (key, v) => (key.display, v)

/-- Casts every key of a record or map. The keys of a record become text again. -/
def rename (keys : Caster) : Value → CastResult Value
  | .record members => do
    let entries ← castEntryKeys keys (textKeyed members.entries)
    return .ofFields (displayKeyed entries)
  | .map members => do
    let entries ← castEntryKeys keys members.entries
    return .ofEntries entries
  | v => reject (.invalidValue v)

end SchemaCast.Caster
