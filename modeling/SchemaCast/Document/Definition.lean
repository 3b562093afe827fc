import SchemaCast.Document.Fields
import SchemaCast.Value.Json

namespace SchemaCast.Document

open Json (Written)

/-- The options of a schema as a document gives them; types and predicates are names. -/
structure Definition where
  type? : Option String
  anyOf? : Option (List Definition)
  casts : Bool
  optional : Bool
  default? : Option Value
  validators : List String
  valueValidators : List String
  contentValidators : List String
  keys? : Option Definition
  values? : Option Definition
  entries? : Option (List (String × Definition))

namespace Definition

/-- The names of the options, in the order in which an array gives them. -/
def options : List String :=
  ["type", "any_of", "cast", "optional", "default", "validator", "value_validator",
    "content_validator", "keys", "values", "entries"]

mutual

/-- Reads a definition that is nested at most as deeply as allowed. -/
def ofWritten? : Nat → Written → Option Definition
  | 0, _ => none
  | allowed + 1, w => do
    let fields ← fields? options w
    return {
      type? := ← fields.optional? "type" text?
      anyOf? := ← fields.optional? "any_of" (membersOfWritten? allowed)
      casts := ← fields.withDefault? "cast" false bool?
      optional := ← fields.withDefault? "optional" false bool?
      default? := ← fields.optional? "default" fun w => (w.json? allowed).map Value.ofJson
      validators := (← fields.optional? "validator" (names? allowed)).getD []
      valueValidators := (← fields.optional? "value_validator" (names? allowed)).getD []
      contentValidators := (← fields.optional? "content_validator" (names? allowed)).getD []
      keys? := ← fields.optional? "keys" (ofWritten? allowed)
      values? := ← fields.optional? "values" (ofWritten? allowed)
      entries? := ← fields.optional? "entries" (entriesOfWritten? allowed) }
termination_by structural allowed => allowed

/-- Reads an array of definitions. -/
def membersOfWritten? : Nat → Written → Option (List Definition)
  | allowed + 1, .array members => members.mapM fun w => ofWritten? allowed w
  | _, _ => none
termination_by structural allowed => allowed

/-- Reads an object of definitions. All its members are kept, also those of one name. -/
def entriesOfWritten? : Nat → Written → Option (List (String × Definition))
  | allowed + 1, .object members =>
    members.mapM fun (name, w) => do return (← name, ← ofWritten? allowed w)
  | _, _ => none
termination_by structural allowed => allowed

end

end Definition

end SchemaCast.Document
