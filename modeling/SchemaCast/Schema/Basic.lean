import SchemaCast.Descriptor

namespace SchemaCast

/-- The type of a schema: a builtin, or any descriptor. -/
inductive SchemaType where
  | builtin (b : Builtin)
  | custom (d : Descriptor)

namespace SchemaType

def descriptor : SchemaType → Descriptor
  | builtin b => .base b.type
  | custom d => d

def name (type : SchemaType) : String := type.descriptor.name

/-- Whether the members of a value of the type can be reached by the option. -/
def supports (type : SchemaType) (option : MemberOption) : Bool :=
  match type, option with
  | builtin .record, _ | builtin .map, _ => true
  | builtin .list, .values | builtin .set, .values => true
  | _, _ => false

end SchemaType

/-- A schema inside another: declared, or compiled already. -/
inductive Nested (S : Type) where
  | declared (schema : S)
  | compiled (d : Descriptor)

/-- A schema as it is declared. -/
structure Schema where
  type : SchemaType
  rules : Rules := {}
  keys? : Option (Nested Schema) := none
  values? : Option (Nested Schema) := none
  entries? : Option (List (String × Nested Schema)) := none

abbrev NestedSchema := Nested Schema

namespace Nested

/-- A builtin named alone is a schema that only tests for it. -/
def ofBuiltin (b : Builtin) : NestedSchema := declared { type := .builtin b }

end Nested

namespace Schema

/-- The schema of lists whose members fit the given one. -/
def list (values : NestedSchema) : Schema := { type := .builtin .list, values? := some values }

/-- The schema of sets whose members fit the given one. -/
def set (values : NestedSchema) : Schema := { type := .builtin .set, values? := some values }

/-- The schema of records with the given entries. -/
def record (entries : List (String × NestedSchema)) : Schema :=
  { type := .builtin .record, entries? := some entries }

/-- The schema of maps with the given entries. -/
def map (entries : List (String × NestedSchema)) : Schema :=
  { type := .builtin .map, entries? := some entries }

end Schema

end SchemaCast
