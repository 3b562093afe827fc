import SchemaCast.Value.Json

namespace SchemaCast.Value

mutual

/-- The text of a value. A list is the text of its members between commas; sets, maps and records
are compact JSON. -/
def display : Value → String
  | null => "null"
  | bool b => if b then "true" else "false"
  | number n => n.text
  | text s => s
  | token t => t.text
  | list members => ",".intercalate (displayMembers members)
  | set members => (set members).toJson.compact
  | map members => (map members).toJson.compact
  | record members => (record members).toJson.compact
  | object i => i.text
termination_by structural v => v

def displayMembers : List Value → List String
  | [] => []
  | v :: vs => display v :: displayMembers vs
termination_by structural vs => vs

end

end SchemaCast.Value
