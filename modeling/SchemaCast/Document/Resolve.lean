import SchemaCast.Document.Definition
import SchemaCast.Schema.Compile

namespace SchemaCast

/-- A schema definition under a name. -/
structure Document where
  name : String
  definition : Document.Definition

namespace Document

/-- Reads a document. -/
def ofWritten? (w : Json.Written) : Option Document := do
  let fields ← fields? ["name", "schema"] w
  return {
    name := ← fields.required? "name" text?
    definition := ← fields.required? "schema"
      (Definition.ofWritten? (Json.deepestNesting - 1)) }

/-- The document that a text writes. -/
def ofText? (text : String) : Option Document :=
  (Json.Written.ofText? text).bind ofWritten?

/-- What the names in definitions stand for. -/
structure Scope where
  type : String → Except Misuse SchemaType
  validator : String → Except Misuse Predicate

namespace Definition

/-- The predicates of a list of names. -/
def predicates (scope : Scope) (names : List String) : Except Misuse (List Predicate) :=
  names.mapM scope.validator

mutual

/-- The schema of a definition. The type comes first, then the predicates, then the definitions of
keys, values and entries. -/
def schema (scope : Scope) (source : String) : Definition → Except Misuse Schema
  | ⟨type?, anyOf?, casts, optional, default?, validators, valueValidators, contentValidators,
      keys?, values?, entries?⟩ => do
    let type ← schemaType scope source type? anyOf?
    let checks ← predicates scope validators
    let valueChecks ← predicates scope valueValidators
    let contentChecks ← predicates scope contentValidators
    let keys? ← schemaOption? scope source keys?
    let values? ← schemaOption? scope source values?
    let entries? ← schemaEntries? scope source entries?
    let rules := { casts, optional, default?, checks, valueChecks, contentChecks }
    return { type, rules, keys?, values?, entries? }
termination_by structural d => d

/-- The type of a schema: a named one, or the first of several schemas that accepts a value. -/
def schemaType (scope : Scope) (source : String) (type? : Option String) :
    Option (List Definition) → Except Misuse SchemaType
  | none => match type? with
    | some name => scope.type name
    | none => .error (.malformed source .missingType)
  | some alternatives => match type? with
    | some _ => .error (.malformed source .exclusiveTypes)
    | none => do
      let schemas ← schemaList scope source alternatives
      return .custom (← Descriptor.anyOfSchemas schemas)
termination_by structural ds => ds

def schemaList (scope : Scope) (source : String) :
    List Definition → Except Misuse (List NestedSchema)
  | [] => .ok []
  | d :: rest => do
    let s ← schema scope source d
    let schemas ← schemaList scope source rest
    return .declared s :: schemas
termination_by structural ds => ds

def schemaOption? (scope : Scope) (source : String) :
    Option Definition → Except Misuse (Option NestedSchema)
  | none => .ok none
  | some d => do
    let s ← schema scope source d
    return some (.declared s)
termination_by structural d => d

def schemaEntries? (scope : Scope) (source : String) :
    Option (List (String × Definition)) → Except Misuse (Option (List (String × NestedSchema)))
  | none => .ok none
  | some entries => do
    let schemas ← schemaFields scope source entries
    return some schemas
termination_by structural ds => ds

def schemaFields (scope : Scope) (source : String) :
    List (String × Definition) → Except Misuse (List (String × NestedSchema))
  | [] => .ok []
  | (key, d) :: rest => do
    let s ← schema scope source d
    let schemas ← schemaFields scope source rest
    return (key, .declared s) :: schemas
termination_by structural ds => ds

end

end Definition

end Document

end SchemaCast
