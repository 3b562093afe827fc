import SchemaCast.Descriptor
import SchemaCast.NameTable

namespace SchemaCast

/-- The types and predicates that documents may name besides the builtin types. -/
structure Registry where
  types : NameTable Descriptor := .empty
  validators : NameTable Predicate := .empty

namespace Registry

/-- Registers a type under a name that is not taken. Here and below, what changes a registry or a
catalog gives a result and the state that it leaves, also where it fails. -/
def registerType (registry : Registry) (name : String) (d : Descriptor) :
    Except Misuse Unit × Registry :=
  match registry.types.bind? name d with
  | some types => (.ok (), { registry with types })
  | none => (.error (.duplicateType name), registry)

/-- Registers a coercion as the type of what it can coerce. -/
def registerCast (registry : Registry) (name : String) (coerce : Value → CastResult Value) :
    Except Misuse Unit × Registry :=
  registry.registerType name (.base { name, coerce? := some coerce })

def registerValidator (registry : Registry) (name : String) (holds : Predicate) :
    Except Misuse Unit × Registry :=
  match registry.validators.bind? name holds with
  | some validators => (.ok (), { registry with validators })
  | none => (.error (.duplicateValidator name), registry)

def type (registry : Registry) (name : String) : Except Misuse Descriptor :=
  match registry.types.find? name with
  | some d => .ok d
  | none => .error (.unknownType name)

def validator (registry : Registry) (name : String) : Except Misuse Predicate :=
  match registry.validators.find? name with
  | some holds => .ok holds
  | none => .error (.unknownValidator name)

end Registry

end SchemaCast
