import SchemaCast.Json.Written

namespace SchemaCast.Document

open Json (Written)

/-- What is written for a field, looked up by its name. -/
abbrev Fields := List (String × Written)

/-- The known members of an object. Unknown members are skipped, a known one may be given once,
and every name has to be text. -/
def knownMembers? (known : List String) : List (Option String × Written) → Option Fields
  | [] => some []
  | (none, _) :: _ => none
  | (some name, w) :: members => do
    let fields ← knownMembers? known members
    if known.contains name then
      if fields.any (·.1 == name) then none else some ((name, w) :: fields)
    else
      some fields

/-- The named fields that are written; an array has no more members than there are fields. -/
def fields? (known : List String) : Written → Option Fields
  | .object members => knownMembers? known members
  | .array members =>
    if members.length ≤ known.length then some (known.zip members) else none
  | _ => none

namespace Fields

def written? (fields : Fields) (name : String) : Option Written :=
  (List.find? (fun field => field.1 == name) fields).map Prod.snd

/-- A field that has to be given. -/
def required? {α : Type} (fields : Fields) (name : String) (read : Written → Option α) :
    Option α :=
  (fields.written? name).bind read

/-- A field that has a default when it is not given. -/
def withDefault? {α : Type} (fields : Fields) (name : String) (default : α)
    (read : Written → Option α) : Option α :=
  match fields.written? name with
  | none => some default
  | some w => read w

/-- A field that may be left out; null leaves it out. -/
def optional? {α : Type} (fields : Fields) (name : String) (read : Written → Option α) :
    Option (Option α) :=
  match fields.written? name with
  | none | some .null => some none
  | some w => (read w).map some

end Fields

def text? : Written → Option String
  | .string text? => text?
  | _ => none

def bool? : Written → Option Bool
  | .bool b => some b
  | _ => none

/-- A name, or an array of names if a further level of nesting is allowed. -/
def names? (allowed : Nat) : Written → Option (List String)
  | .string text? => text?.map ([·])
  | .array members => if allowed = 0 then none else members.mapM text?
  | _ => none

end SchemaCast.Document
