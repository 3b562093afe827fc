import SchemaCast.Value.Text

namespace SchemaCast

/-- What is wrong at the place of a rejection. A rejected key carries the rejection of the key
itself. -/
inductive Fault (R : Type) where
  | invalidValue (value? : Option Value)
  | missingValue
  | invalidKey (key : Value) (cause : R)
  | missingKey (key : Value)
  | extraKey (key : Value)

/-- A fault and the path to the value that has it, outermost segment first. -/
structure Rejection where
  path : List String
  fault : Fault Rejection

namespace Rejection

def invalidValue (v : Value) : Rejection := ⟨[], .invalidValue (some v)⟩

def missingValue : Rejection := ⟨[], .missingValue⟩

def invalidKey (key : Value) (cause : Rejection) : Rejection := ⟨[], .invalidKey key cause⟩

def missingKey (key : String) : Rejection := ⟨[], .missingKey (.text key)⟩

def extraKey (key : Value) : Rejection := ⟨[], .extraKey key⟩

/-- The rejection as it is seen from the container that holds the value under the segment. -/
def under (segment : String) (r : Rejection) : Rejection :=
  { r with path := segment :: r.path }

/-- The value or key that is at fault, unless none was supplied. -/
def value? (r : Rejection) : Option Value :=
  match r.fault with
  | .invalidValue value? => value?
  | .missingValue => none
  | .invalidKey key _ => some key
  | .missingKey key => some key
  | .extraKey key => some key

/-- The rejection of the key, where a key was rejected. -/
def cause? (r : Rejection) : Option Rejection :=
  match r.fault with
  | .invalidKey _ cause => some cause
  | _ => none

/-- The code under which a rejection is reported. -/
def code (r : Rejection) : String :=
  match r.fault with
  | .invalidValue _ => "VALUE_INVALID"
  | .missingValue => "VALUE_MISSING"
  | .invalidKey _ _ => "KEY_INVALID"
  | .missingKey _ => "KEY_MISSING"
  | .extraKey _ => "KEY_EXTRA"

/-- An ASCII letter or an underscore. -/
def isNameStart (c : Char) : Bool := c.isAlpha || c == '_'

/-- An ASCII letter or digit, or an underscore. -/
def isNamePart (c : Char) : Bool := c.isAlphanum || c == '_'

/-- A key is plain when it is an ASCII name. -/
def isPlainKey : List Char → Bool
  | [] => false
  | c :: cs => isNameStart c && cs.all isNamePart

/-- A key is an index when it is one or more ASCII digits. -/
def isIndex (cs : List Char) : Bool :=
  !cs.isEmpty && cs.all Char.isDigit

/-- The characters of a segment: `.name`, `[3]` or `['any text']`. -/
def segmentChars (segment : List Char) : List Char :=
  if isPlainKey segment then '.' :: segment
  else if isIndex segment then '[' :: segment ++ [']']
  else '[' :: '\'' :: segment ++ ['\'', ']']

/-- The text of a segment. -/
def renderSegment (segment : String) : String :=
  String.ofList (segmentChars segment.toList)

/-- The text of a path from the root, which is written `$`. -/
def renderPath (path : List String) : String :=
  String.ofList ('$' :: path.flatMap fun segment => segmentChars segment.toList)

/-- How a message names the place of a fault. -/
def place (r : Rejection) : String :=
  if r.path.isEmpty then "itself" else "on path " ++ renderPath r.path

def message (r : Rejection) : String :=
  match r.fault with
  | .invalidValue _ => "Value " ++ r.place ++ " is not valid."
  | .missingValue => "Value " ++ r.place ++ " is missing."
  | .invalidKey key _ =>
    "Key " ++ key.display ++ " of the object " ++ r.place ++ " is not valid."
  | .missingKey key =>
    "Key " ++ key.display ++ " of the object " ++ r.place ++ " is missing."
  | .extraKey key =>
    "Key " ++ key.display ++ " of the object " ++ r.place ++ " is not allowed to be present."

end Rejection

end SchemaCast
