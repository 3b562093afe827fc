import SchemaCast.Schema.Basic

namespace SchemaCast

namespace SchemaType

/-- An option is refused on types whose members it cannot reach. -/
def require (type : SchemaType) (option : MemberOption) : Except Misuse Unit :=
  if type.supports option then .ok () else .error (.unsupportedOption option type.name)

end SchemaType

namespace Rules

/-- Coercion is refused by types that have none. -/
def requireCast (rules : Rules) (type : SchemaType) : Except Misuse Unit :=
  if rules.casts && !type.descriptor.isCastable then .error (.notCastable type.name) else .ok ()

end Rules

namespace Schema

/-- A schema cannot treat its members in two ways. -/
def requireOneContents {α β : Type} (values? : Option α) (entries? : Option β) :
    Except Misuse Unit :=
  if values?.isSome && entries?.isSome then .error .conflictingOptions else .ok ()

/-- What the two options say about members; they are never both given here. -/
def contents (values? : Option Descriptor) (children? : Option (OrderedMap String Descriptor)) :
    Contents Descriptor :=
  match values?, children? with
  | some child, _ => .each child
  | none, some children => .declared children
  | none, none => .any

mutual

/-- Compiles a schema and, in the order keys, values, entries, the schemas inside it. -/
def compile : Schema → Except Misuse Descriptor
  | ⟨type, rules, keys?, values?, entries?⟩ => do
    rules.requireCast type
    requireOneContents values? entries?
    let keys? ← compileOption? type .keys keys?
    let values? ← compileOption? type .values values?
    let children? ← compileEntries? type entries?
    return .validator type.descriptor rules keys? (contents values? children?)
termination_by structural s => s

def compileNested : NestedSchema → Except Misuse Descriptor
  | .declared schema => compile schema
  | .compiled d => .ok d
termination_by structural s => s

/-- Compiles the schema of an option, once the type is known to support it. -/
def compileOption? (type : SchemaType) (option : MemberOption) :
    Option NestedSchema → Except Misuse (Option Descriptor)
  | none => .ok none
  | some schema => do
    type.require option
    return some (← compileNested schema)
termination_by structural s => s

/-- Compiles entries in order. Of a repeated key the last schema counts, in the first place. -/
def compileEntries? (type : SchemaType) :
    Option (List (String × NestedSchema)) → Except Misuse (Option (OrderedMap String Descriptor))
  | none => .ok none
  | some entries => do
    type.require .entries
    return some (.ofList (← compileFields entries))
termination_by structural s => s

def compileFields : List (String × NestedSchema) → Except Misuse (List (String × Descriptor))
  | [] => .ok []
  | (key, schema) :: rest => do
    let d ← compileNested schema
    let ds ← compileFields rest
    return (key, d) :: ds
termination_by structural s => s

end

/-- Compiles schemas in order. -/
def compileAll : List NestedSchema → Except Misuse (List Descriptor)
  | [] => .ok []
  | schema :: rest => do
    let d ← compileNested schema
    let ds ← compileAll rest
    return d :: ds

end Schema

namespace Descriptor

/-- The descriptor that tries schemas in turn. -/
def anyOfSchemas (alternatives : List NestedSchema) : Except Misuse Descriptor :=
  return .anyOf (← Schema.compileAll alternatives)

/-- The descriptor of the members of lists and sets. -/
def sequenceOf (schema : NestedSchema) : Except Misuse Descriptor :=
  return .sequence (← Schema.compileNested schema)

/-- The descriptor of records and maps with the given entries. -/
def entriesOf (schemas : List (String × NestedSchema)) : Except Misuse Descriptor :=
  return .entries (.ofList (← Schema.compileFields schemas))

end Descriptor

end SchemaCast
