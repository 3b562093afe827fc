import SchemaCast.Number.Basic
import SchemaCast.OrderedMap

namespace SchemaCast

/-- A JSON value. The names of an object are distinct: an object that is read or made keeps the
first place and the last value of a repeated name. -/
inductive Json where
  | null
  | bool (b : Bool)
  | number (n : Number)
  | text (s : String)
  | array (members : List Json)
  | object (members : OrderedMap String Json)

namespace Json

instance : Inhabited Json := ⟨null⟩

/-- The object with the given members, a repeated name replacing the value before it. -/
def ofMembers (members : List (String × Json)) : Json := object (.ofList members)

mutual

/-- How deeply arrays and objects are nested. -/
def depth : Json → Nat
  | array members => depthOfMembers members + 1
  | object ⟨members⟩ => depthOfFields members + 1
  | _ => 0
termination_by structural j => j

def depthOfMembers : List Json → Nat
  | [] => 0
  | j :: js => max (depth j) (depthOfMembers js)
termination_by structural js => js

def depthOfFields : List (String × Json) → Nat
  | [] => 0
  | (_, j) :: js => max (depth j) (depthOfFields js)
termination_by structural js => js

end

end Json

end SchemaCast
