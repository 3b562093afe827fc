import SchemaCast.Builtin
import SchemaCast.Caster.AnyOf
import SchemaCast.Caster.Entries
import SchemaCast.Caster.Members
import SchemaCast.Caster.Rules

namespace SchemaCast

/-- What a validator does with the members of its value: nothing, cast each in the same way, or
cast them key by key. -/
inductive Contents (D : Type) where
  | any
  | each (child : D)
  | declared (children : OrderedMap String D)

/-- What a schema is compiled to. There are no other types than these: what a host program adds is a
base type, by its test and coercion, and so has no answer to an absent value but that it is
missing. -/
inductive Descriptor where
  | base (type : BaseType)
  | validator (type : Descriptor) (rules : Rules) (keys? : Option Descriptor)
      (contents : Contents Descriptor)
  | sequence (child : Descriptor)
  | entries (children : OrderedMap String Descriptor)
  | anyOf (alternatives : List Descriptor)

namespace Descriptor

mutual

def name : Descriptor → String
  | base type => type.name
  | validator type _ _ _ => "Validator<" ++ name type ++ ">"
  | sequence _ => "Values"
  | entries _ => "Entries"
  | anyOf alternatives => "AnyOf<" ++ " | ".intercalate (names alternatives) ++ ">"
termination_by structural d => d

def names : List Descriptor → List String
  | [] => []
  | d :: ds => name d :: names ds
termination_by structural ds => ds

end

/-- Only a type without coercion cannot cast. -/
def isCastable : Descriptor → Bool
  | base type => type.coerce?.isSome
  | _ => true

/-- Tests a value, given how the descriptor casts: a base type may have a test of its own, and
every other descriptor accepts what it can cast. -/
def testBy (cast : Caster) : Descriptor → Value → Except Misuse Bool
  | base type, v => type.test v
  | _, v => (cast (some v)).accepted

mutual

/-- Casts a value that may be absent. -/
def cast : Descriptor → Caster
  | base type => type.cast
  | validator type rules keys? contents =>
    rules.apply (cast type) (testBy (cast type) type) (castKeys keys?) (castContents contents)
  | sequence child => Caster.sequence (cast child)
  | entries ⟨children⟩ => Caster.entries (castFields children)
  | anyOf alternatives => Caster.anyOf (castAll alternatives)
termination_by structural d => d

def castAll : List Descriptor → List Caster
  | [] => []
  | d :: ds => cast d :: castAll ds
termination_by structural ds => ds

def castFields : List (String × Descriptor) → List (String × Caster)
  | [] => []
  | (key, d) :: ds => (key, cast d) :: castFields ds
termination_by structural ds => ds

/-- Casts the keys of a container by the descriptor of keys, if there is one. -/
def castKeys : Option Descriptor → Value → CastResult Value
  | none, v => .ok v
  | some keys, v => Caster.rename (cast keys) v
termination_by structural d => d

/-- Casts the members of a container. -/
def castContents : Contents Descriptor → Value → CastResult Value
  | .any, v => .ok v
  | .each child, v => Caster.castMembers (cast child) v
  | .declared ⟨children⟩, v => Caster.entries (castFields children) (some v)
termination_by structural c => c

end

/-- Tests a value. -/
def test (d : Descriptor) (v : Value) : Except Misuse Bool :=
  testBy d.cast d v

/-- Whether a value that may be absent can be cast. -/
def accepts (d : Descriptor) (input : Option Value) : Except Misuse Bool :=
  (d.cast input).accepted

end Descriptor

end SchemaCast
