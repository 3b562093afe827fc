import SchemaCast.BaseType
import SchemaCast.Number.Leading

namespace SchemaCast

/-- The types that every schema can use by name. -/
inductive Builtin where
  | text
  | number
  | boolean
  | token
  | list
  | set
  | map
  | record
  | json
  deriving DecidableEq

namespace Builtin

def name : Builtin → String
  | text => "text"
  | number => "number"
  | boolean => "boolean"
  | token => "token"
  | list => "list"
  | set => "set"
  | map => "map"
  | record => "record"
  | json => "json"

def all : List Builtin := [text, number, boolean, token, list, set, map, record, json]

def ofName? (name : String) : Option Builtin :=
  all.find? (·.name == name)

/-- Any value becomes its text. -/
def toText (v : Value) : CastResult Value :=
  .ok (.text v.display)

/-- A number stays, and a text becomes the number at its front. -/
def toNumber (v : Value) : CastResult Value :=
  let number? := match v with
    | .number n => some n
    | .text s => Number.ofLeading? s
    | _ => none
  match number? with
  | some n => if n.isNaN then reject (.invalidValue v) else .ok (.number n)
  | none => reject (.invalidValue v)

/-- One and zero, and the words for true and false, become booleans. -/
def toBoolean (v : Value) : CastResult Value :=
  match v with
  | .bool _ => .ok v
  | .number n =>
    if n == .ofInt 1 then .ok (.bool true)
    else if n.isZero then .ok (.bool false)
    else reject (.invalidValue v)
  | .text s =>
    if s = "1" ∨ s = "true" then .ok (.bool true)
    else if s = "0" ∨ s = "false" then .ok (.bool false)
    else reject (.invalidValue v)
  | _ => reject (.invalidValue v)

/-- A text is read as JSON; other values stay, except tokens, which have no JSON form. -/
def toJsonValue (v : Value) : CastResult Value :=
  match v with
  | .text s => match Value.ofJsonText? s with
    | some w => .ok w
    | none => reject (.invalidValue v)
  | .token _ => reject (.invalidValue v)
  | _ => .ok v

/-- The test of a builtin; `json` has none of its own. -/
def test? : Builtin → Option Predicate
  | text => some (·.isText)
  | number => some fun v => v.number?.any (!·.isNaN)
  | boolean => some fun | .bool _ => true | _ => false
  | token => some fun | .token _ => true | _ => false
  | list => some (·.list?.isSome)
  | set => some (·.set?.isSome)
  | map => some (·.map?.isSome)
  | record => some (·.record?.isSome)
  | json => none

/-- The coercion of a builtin, for those that have one. -/
def coerce? : Builtin → Option (Value → CastResult Value)
  | text => some toText
  | number => some toNumber
  | boolean => some toBoolean
  | json => some toJsonValue
  | _ => none

def type (b : Builtin) : BaseType := ⟨b.name, b.test?, b.coerce?⟩

end Builtin

end SchemaCast
