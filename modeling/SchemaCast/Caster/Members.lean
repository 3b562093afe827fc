import SchemaCast.Caster.Basic

namespace SchemaCast.Caster

/-- The decimal text of an index. -/
def indexText (index : Nat) : String := String.ofList (Nat.toDigits 10 index)

/-- Casts members in order, the first of them having the given index. -/
def castSequenceFrom (child : Caster) (index : Nat) : List Value → CastResult (List Value)
  | [] => .ok []
  | v :: vs => do
    let w ← (child (some v)).under (indexText index)
    let ws ← castSequenceFrom child (index + 1) vs
    return w :: ws

/-- Casts the members of a list or set in order. -/
def castSequence (child : Caster) (members : List Value) : CastResult (List Value) :=
  castSequenceFrom child 0 members

/-- Casts the value of every entry in order; a key stands in paths as the given text. -/
def castEntryValues {K : Type} (child : Caster) (segment : K → String) :
    List (K × Value) → CastResult (List (K × Value))
  | [] => .ok []
  | (key, v) :: entries => do
    let w ← (child (some v)).under (segment key)
    let rest ← castEntryValues child segment entries
    return (key, w) :: rest

/-- Casts every member of a container and keeps its kind and its keys; members of a set that
become equal collapse. -/
def castMembers (child : Caster) : Value → CastResult Value
  | .list members => return .list (← castSequence child members)
  | .set members => return .ofMembers (← castSequence child members)
  | .record members => return .ofFields (← castEntryValues child id members.entries)
  | .map members => return .ofEntries (← castEntryValues child Value.display members.entries)
  | v => reject (.invalidValue v)

/-- The caster of the members of a list or set, which gives a list. -/
def sequence (child : Caster) : Caster
  | some (.list members) => return .list (← castSequence child members)
  | some (.set members) => return .list (← castSequence child members)
  | some v => reject (.invalidValue v)
  | none => reject .missingValue

end SchemaCast.Caster
