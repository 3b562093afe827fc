import SchemaCast.Json.Basic
import SchemaCast.Json.Layout

namespace SchemaCast.Json

mutual

/-- The characters of a value that stands at the given level. -/
def written (spacing : Spacing) (level : Nat) : Json → List Char
  | null => "null".toList
  | bool b => boolText b
  | number n => numberText n
  | text s => quoted s
  | array members => bracketed spacing level '[' ']' (writtenMembers spacing (level + 1) members)
  | object ⟨members⟩ =>
    bracketed spacing level '{' '}' (writtenFields spacing (level + 1) members)
termination_by structural j => j

def writtenMembers (spacing : Spacing) (level : Nat) : List Json → List (List Char)
  | [] => []
  | j :: js => written spacing level j :: writtenMembers spacing level js
termination_by structural js => js

def writtenFields (spacing : Spacing) (level : Nat) : List (String × Json) → List (List Char)
  | [] => []
  | (name, j) :: js =>
    namedMember spacing name (written spacing level j) :: writtenFields spacing level js
termination_by structural js => js

end

/-- The text of a value with the given spacing. -/
def print (spacing : Spacing) (j : Json) : String :=
  String.ofList (written spacing 0 j)

/-- The text of a value on one line. -/
def compact (j : Json) : String := j.print .compact

end SchemaCast.Json
