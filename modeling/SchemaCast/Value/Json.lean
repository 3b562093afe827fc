import SchemaCast.Json.Printer
import SchemaCast.Json.Written
import SchemaCast.Value.Basic

namespace SchemaCast

namespace Token

def text (t : Token) : String := "Token(" ++ t.description ++ ")"

end Token

namespace Instance

def text (i : Instance) : String := "[object " ++ i.hostClass.name ++ "]"

end Instance

namespace Value

/-- The JSON form of a number. A whole number below `2 ^ 53` is made from its integer, and any other
finite number is taken as it is. -/
def numberJson (n : Number) : Json :=
  match n.wholeNumber? with
  | some whole => .number (.ofInt whole)
  | none => if n.isFinite then .number n else .null

def isText : Value → Bool
  | text _ => true
  | _ => false

/-- The name that a text key gives to the member of an object. -/
def fieldName : Value → String
  | text s => s
  | _ => ""

mutual

/-- The JSON form of a value. A map is an object if all its keys are text, and an array of pairs
otherwise. -/
def toJson : Value → Json
  | null => .null
  | bool b => .bool b
  | number n => numberJson n
  | text s => .text s
  | token t => .text t.text
  | list members => .array (toJsonMembers members)
  | set members => .array (toJsonMembers members)
  | map ⟨members⟩ =>
    if members.all (·.1.isText) then .ofMembers (toJsonNamed members)
    else .array (toJsonPairs members)
  | record ⟨members⟩ => .ofMembers (toJsonFields members)
  | object i => .text i.text
termination_by structural v => v

def toJsonMembers : List Value → List Json
  | [] => []
  | v :: vs => toJson v :: toJsonMembers vs
termination_by structural vs => vs

def toJsonNamed : List (Value × Value) → List (String × Json)
  | [] => []
  | (key, v) :: vs => (key.fieldName, toJson v) :: toJsonNamed vs
termination_by structural vs => vs

def toJsonPairs : List (Value × Value) → List Json
  | [] => []
  | (key, v) :: vs => .array [toJson key, toJson v] :: toJsonPairs vs
termination_by structural vs => vs

def toJsonFields : List (String × Value) → List (String × Json)
  | [] => []
  | (name, v) :: vs => (name, toJson v) :: toJsonFields vs
termination_by structural vs => vs

end

mutual

/-- The value of a JSON value: arrays are lists and objects are records. -/
def ofJson : Json → Value
  | .null => null
  | .bool b => bool b
  | .number n => number n
  | .text s => text s
  | .array members => list (ofJsonMembers members)
  | .object ⟨members⟩ => record ⟨ofJsonFields members⟩
termination_by structural j => j

def ofJsonMembers : List Json → List Value
  | [] => []
  | j :: js => ofJson j :: ofJsonMembers js
termination_by structural js => js

def ofJsonFields : List (String × Json) → List (String × Value)
  | [] => []
  | (name, j) :: js => (name, ofJson j) :: ofJsonFields js
termination_by structural js => js

end

/-- The value that a JSON text writes. -/
def ofJsonText? (text : String) : Option Value :=
  (Json.ofText? text).map ofJson

mutual

/-- The JSON text of a value at the given level, written member by member. -/
def written (spacing : Json.Spacing) (level : Nat) : Value → List Char
  | null => "null".toList
  | bool b => Json.boolText b
  | number n => Json.numberText n
  | text s => Json.quoted s
  | token t => Json.quoted t.text
  | list members => Json.bracketed spacing level '[' ']' (writtenMembers spacing (level + 1) members)
  | set members => Json.bracketed spacing level '[' ']' (writtenMembers spacing (level + 1) members)
  | map ⟨members⟩ =>
    if members.all (·.1.isText) then
      Json.bracketed spacing level '{' '}' (writtenNamed spacing (level + 1) members)
    else
      Json.bracketed spacing level '[' ']' (writtenPairs spacing (level + 1) members)
  | record ⟨members⟩ =>
    Json.bracketed spacing level '{' '}' (writtenFields spacing (level + 1) members)
  | object i => Json.quoted i.text
termination_by structural v => v

def writtenMembers (spacing : Json.Spacing) (level : Nat) : List Value → List (List Char)
  | [] => []
  | v :: vs => written spacing level v :: writtenMembers spacing level vs
termination_by structural vs => vs

def writtenNamed (spacing : Json.Spacing) (level : Nat) : List (Value × Value) → List (List Char)
  | [] => []
  | (key, v) :: vs =>
    Json.namedMember spacing key.fieldName (written spacing level v) ::
      writtenNamed spacing level vs
termination_by structural vs => vs

def writtenPairs (spacing : Json.Spacing) (level : Nat) : List (Value × Value) → List (List Char)
  | [] => []
  | (key, v) :: vs =>
    Json.bracketed spacing level '[' ']'
        [written spacing (level + 1) key, written spacing (level + 1) v] ::
      writtenPairs spacing level vs
termination_by structural vs => vs

def writtenFields (spacing : Json.Spacing) (level : Nat) : List (String × Value) → List (List Char)
  | [] => []
  | (name, v) :: vs =>
    Json.namedMember spacing name (written spacing level v) :: writtenFields spacing level vs
termination_by structural vs => vs

end

/-- The JSON text of a value with the given spacing. -/
def printJson (spacing : Json.Spacing) (v : Value) : String :=
  String.ofList (v.written spacing 0)

end Value

end SchemaCast
