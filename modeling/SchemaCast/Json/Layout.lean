import SchemaCast.Number.Text

namespace SchemaCast.Json

/-- Compact text is one line without spaces; indented text has a member on each line. -/
inductive Spacing where
  | compact
  | indented
  deriving DecidableEq

/-- The escape that stands for a character in quoted text: quote, backslash and the controls below
space are escaped, five of the controls by a letter. -/
def escape (c : Char) : List Char :=
  if c = '"' then ['\\', '"']
  else if c = '\\' then ['\\', '\\']
  else if c = '\n' then ['\\', 'n']
  else if c = '\r' then ['\\', 'r']
  else if c = '\t' then ['\\', 't']
  else if c.toNat = 8 then ['\\', 'b']
  else if c.toNat = 12 then ['\\', 'f']
  else if c.toNat < 32 then
    ['\\', 'u', '0', '0', Nat.digitChar (c.toNat / 16), Nat.digitChar (c.toNat % 16)]
  else [c]

/-- Text between quotes. -/
def quoted (s : String) : List Char :=
  '"' :: s.toList.flatMap escape ++ ['"']

/-- Numbers in JSON have an exponent from `10 ^ 16` on and below `10 ^ -5`; the whole ones that are
too large to be exact keep their point, and a half goes to the even digit. -/
def numberLayout : NumberLayout := ⟨-5, 15, true, .even⟩

/-- Whole numbers below `2 ^ 53` are written as such, other finite numbers by the layout. What is
not finite has no JSON form but `null`. -/
def numberText (n : Number) : List Char :=
  match n.wholeNumber? with
  | some whole => (if whole < 0 then ['-'] else []) ++ Nat.toDigits 10 whole.natAbs
  | none => if n.isFinite then (numberLayout.write n).toList else "null".toList

def boolText (b : Bool) : List Char :=
  if b then "true".toList else "false".toList

/-- The line break in front of a member at the given level. -/
def lineBreak (spacing : Spacing) (level : Nat) : List Char :=
  match spacing with
  | .compact => []
  | .indented => '\n' :: List.replicate (2 * level) ' '

/-- The members after the first, each behind a comma. -/
def furtherMembers (spacing : Spacing) (level : Nat) (members : List (List Char)) : List Char :=
  members.flatMap fun text => ',' :: lineBreak spacing level ++ text

/-- Members between two brackets; without members nothing stands between the brackets. -/
def bracketed (spacing : Spacing) (level : Nat) (opening closing : Char) :
    List (List Char) → List Char
  | [] => [opening, closing]
  | first :: rest =>
    opening :: lineBreak spacing (level + 1) ++ first ++
      furtherMembers spacing (level + 1) rest ++ lineBreak spacing level ++ [closing]

/-- A member of an object: its name, a colon and its value. -/
def namedMember (spacing : Spacing) (name : String) (value : List Char) : List Char :=
  quoted name ++ match spacing with
    | .compact => ':' :: value
    | .indented => ':' :: ' ' :: value

end SchemaCast.Json
