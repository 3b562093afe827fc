import SchemaCast.Catalog
import SchemaCast.Program.Error

namespace SchemaCast.Program

/-- The answer to a value: what it was cast to, whether it is valid, or why it is rejected. -/
inductive Outcome where
  | cast (v : Value)
  | valid (b : Bool)
  | rejected (code message : String)

namespace Outcome

/-- The response that reports an outcome. -/
def response : Outcome → Json
  | cast v => .ofMembers [("status", .text "ok"), ("data", v.toJson)]
  | valid b => .ofMembers [("status", .text "ok"), ("valid", .bool b)]
  | rejected code message =>
    .ofMembers [("status", .text "error"), ("code", .text code), ("message", .text message)]

/-- The outcome that reports a rejection. -/
def ofRejection (r : Rejection) : Outcome := rejected r.code r.message

end Outcome

/-- The response that lists the names of schemas. -/
def listing (names : List String) : Json :=
  .ofMembers [("status", .text "ok"), ("data", .array (names.map .text))]

/-- A response as it is written, on lines of its own. -/
def responseText (pretty : Bool) (response : Json) : String :=
  response.print (if pretty then .indented else .compact) ++ "\n"

/-- Casts a value by a loaded schema, or only tests whether that can be done. -/
def apply (catalog : Catalog) (name : String) (input : Value) (testOnly : Bool) :
    Except ProgramError Outcome :=
  match catalog.schema name with
  | .error m => .error (.schema m)
  | .ok d => match d.cast (some input) with
    | .ok v => .ok (if testOnly then .valid true else .cast v)
    | .error (.rejected r) => .ok (if testOnly then .valid false else .ofRejection r)
    | .error (.misused m) => .error (.schema m)

/-- The value on the input, which has to be a single JSON text. -/
def readValue (input : ByteArray) : Except InputDefect Value :=
  match String.fromUTF8? input with
  | none => .error .notUtf8
  | some text =>
    if Text.allBlank text then .error .empty
    else match Value.ofJsonText? text with
      | none => .error .invalid
      | some v => .ok v

end SchemaCast.Program
