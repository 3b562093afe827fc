import SchemaCast.Number.Basic
import SchemaCast.OrderedMap

namespace SchemaCast

/-- A token is equal to itself alone, whatever its description. -/
structure Token where
  identity : Nat
  description : String
  deriving DecidableEq

/-- A class of the host program. Classes of one name are told apart by identity. -/
structure HostClass where
  identity : Nat
  name : String
  deriving DecidableEq

/-- An object of the host program, known by its identity and its class. -/
structure Instance where
  identity : Nat
  hostClass : HostClass
  deriving DecidableEq

/-- A value of any type. Members keep the order in which they were given. -/
inductive Value where
  | null
  | bool (b : Bool)
  | number (n : Number)
  | text (s : String)
  | token (t : Token)
  | list (members : List Value)
  | set (members : List Value)
  | map (members : OrderedMap Value Value)
  | record (members : OrderedMap String Value)
  | object (i : Instance)

namespace Value

instance : Inhabited Value := ⟨null⟩

mutual

/-- Equality of values is that of their parts in order; tokens and objects are equal by identity,
and what is not a number equals nothing. -/
def same : Value → Value → Bool
  | null, null => true
  | bool a, bool b => a == b
  | number a, number b => a == b
  | text a, text b => a == b
  | token a, token b => a.identity == b.identity
  | list as, list bs => sameMembers as bs
  | set as, set bs => sameMembers as bs
  | map ⟨as⟩, map ⟨bs⟩ => sameEntries as bs
  | record ⟨as⟩, record ⟨bs⟩ => sameFields as bs
  | object a, object b => a.identity == b.identity
  | _, _ => false
termination_by structural a => a

def sameMembers : List Value → List Value → Bool
  | [], [] => true
  | a :: as, b :: bs => same a b && sameMembers as bs
  | _, _ => false
termination_by structural as => as

def sameEntries : List (Value × Value) → List (Value × Value) → Bool
  | [], [] => true
  | (j, a) :: as, (k, b) :: bs => same j k && same a b && sameEntries as bs
  | _, _ => false
termination_by structural as => as

def sameFields : List (String × Value) → List (String × Value) → Bool
  | [], [] => true
  | (j, a) :: as, (k, b) :: bs => j == k && same a b && sameFields as bs
  | _, _ => false
termination_by structural as => as

end

instance : BEq Value := ⟨same⟩

/-- The members in order, without those equal to an earlier one that was kept. -/
def distinct (members : List Value) : List Value :=
  members.foldl (fun kept v => if kept.any (· == v) then kept else kept ++ [v]) []

/-- The set of the given members. -/
def ofMembers (members : List Value) : Value := set (distinct members)

/-- The map of the given entries; a repeated key replaces the value before it. -/
def ofEntries (entries : List (Value × Value)) : Value := map (.ofList entries)

/-- The record of the given fields; a repeated name replaces the value before it. -/
def ofFields (fields : List (String × Value)) : Value := record (.ofList fields)

def number? : Value → Option Number
  | number n => some n
  | _ => none

def text? : Value → Option String
  | text s => some s
  | _ => none

def list? : Value → Option (List Value)
  | list members => some members
  | _ => none

def set? : Value → Option (List Value)
  | set members => some members
  | _ => none

def map? : Value → Option (OrderedMap Value Value)
  | map members => some members
  | _ => none

def record? : Value → Option (OrderedMap String Value)
  | record members => some members
  | _ => none

def object? : Value → Option Instance
  | object i => some i
  | _ => none

/-- The field of a record; no other value has fields. -/
def field? (v : Value) (name : String) : Option Value :=
  v.record?.bind (·.get? name)

end Value

end SchemaCast
