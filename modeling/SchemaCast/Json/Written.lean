import SchemaCast.Json.Basic
import SchemaCast.Json.Lexeme

namespace SchemaCast.Json

/-- JSON as it is written, before a value is taken from it. An object keeps all its members, a
string may name no text, a number may lie beyond the doubles, and there is no bound on nesting. -/
inductive Written where
  | null
  | bool (b : Bool)
  | number (n : Number)
  | string (text? : Option String)
  | array (members : List Written)
  | object (members : List (Option String × Written))

namespace Written

/-- An array or object whose members are still being read. Members read so far stand in reverse
order; the name of an object's member waits for its value. -/
inductive Frame where
  | array (before : List Written)
  | object (before : List (Option String × Written)) (name : Option String)

mutual

/-- Reads a value and what follows it, inside the given frames. -/
def readValue (frames : List Frame) : List Lexeme → Option Written
  | .null :: rest => readAfter .null frames rest
  | .bool b :: rest => readAfter (.bool b) frames rest
  | .number n :: rest => readAfter (.number n) frames rest
  | .string text? :: rest => readAfter (.string text?) frames rest
  | .openArray :: .closeArray :: rest => readAfter (.array []) frames rest
  | .openArray :: rest => readValue (.array [] :: frames) rest
  | .openObject :: .closeObject :: rest => readAfter (.object []) frames rest
  | .openObject :: .string name :: .colon :: rest => readValue (.object [] name :: frames) rest
  | _ => none
termination_by structural lexemes => lexemes

/-- Reads what follows a value: a comma and a further member, the end of the innermost frame, or
the end of the text once no frame is open. -/
def readAfter (value : Written) (frames : List Frame) : List Lexeme → Option Written
  | [] => match frames with
    | [] => some value
    | _ => none
  | .comma :: .string next :: .colon :: rest => match frames with
    | .object before name :: frames =>
      readValue (.object ((name, value) :: before) next :: frames) rest
    | _ => none
  | .comma :: rest => match frames with
    | .array before :: frames => readValue (.array (value :: before) :: frames) rest
    | _ => none
  | .closeArray :: rest => match frames with
    | .array before :: frames => readAfter (.array (value :: before).reverse) frames rest
    | _ => none
  | .closeObject :: rest => match frames with
    | .object before name :: frames =>
      readAfter (.object ((name, value) :: before).reverse) frames rest
    | _ => none
  | _ => none
termination_by structural lexemes => lexemes

end

/-- What a text writes, if it is JSON text. -/
def ofText? (text : String) : Option Written :=
  (lexemes? text.toList).bind (readValue [])

mutual

/-- The value that is written, nested at most as deeply as allowed. Numbers have to be finite, and
strings and names have to be text. -/
def json? (allowed : Nat) : Written → Option Json
  | null => some .null
  | bool b => some (.bool b)
  | number n => if n.isFinite then some (.number n) else none
  | string text? => text?.map .text
  | array members =>
    if allowed = 0 then none else (jsonMembers? (allowed - 1) members).map .array
  | object members =>
    if allowed = 0 then none else (jsonFields? (allowed - 1) members).map .ofMembers
termination_by structural w => w

def jsonMembers? (allowed : Nat) : List Written → Option (List Json)
  | [] => some []
  | w :: ws => do return (← json? allowed w) :: (← jsonMembers? allowed ws)
termination_by structural ws => ws

def jsonFields? (allowed : Nat) : List (Option String × Written) → Option (List (String × Json))
  | [] => some []
  | (name, w) :: ws => do
    return (← name, ← json? allowed w) :: (← jsonFields? allowed ws)
termination_by structural ws => ws

end

end Written

/-- Values are read to this depth of arrays and objects. -/
def deepestNesting : Nat := 127

/-- The value that a text writes. -/
def ofText? (text : String) : Option Json :=
  (Written.ofText? text).bind (·.json? deepestNesting)

end SchemaCast.Json
