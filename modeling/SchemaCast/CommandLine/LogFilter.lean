import SchemaCast.CommandLine.Alphanumeric
import SchemaCast.Number.Nearest
import SchemaCast.Text.Blank

namespace SchemaCast.CommandLine

namespace LogFilter

/-- The levels by name, which is written in letters of either case. -/
def levelNames : List String :=
  ["trace", "debug", "info", "warn", "error", "off"]

/-- The levels by number count from zero up to this one. -/
def lastLevel : Nat := 5

/-- Digits that write the number of a level. -/
def isLevelNumber (digits : List Char) : Bool :=
  !digits.isEmpty && digits.all Char.isDigit && Decimal.ofDigits digits ≤ lastLevel

/-- A level by its name or by its number, which may have a plus sign. -/
def isLevel : List Char → Bool
  | '+' :: digits => isLevelNumber digits
  | cs => isLevelNumber cs || levelNames.contains (String.ofList (cs.map Char.toLower))

/-- A target begins with a letter, a digit, a hyphen, a colon or an underscore. -/
def beginsTarget (c : Char) : Bool :=
  c == '-' || c == ':' || c == '_' || isAlphanumeric c

/-- A field has a name, and it may have a value behind an equals sign. Values are taken here only if
they are plain: without brackets and without signs for repetition and escapes. -/
def isField (field : List Char) : Bool :=
  let special := ['\\', '+', '*', '?', '(', ')', '[', '{']
  !field.isEmpty && (field.dropWhile (· != '=')).all fun c => !special.contains c

/-- What follows a span, whose opening bracket is behind. A span may have a field in braces. -/
def dropSpan? (cs : List Char) : Option (List Char) :=
  match cs.dropWhile fun c => c != ']' && c != '{' with
  | ']' :: rest => some rest
  | '{' :: cs =>
    match cs.dropWhile (· != '}') with
    | '}' :: ']' :: rest => if isField (cs.takeWhile (· != '}')) then some rest else none
    | _ => none
  | _ => none

/-- What follows the target, the span or the level in front of a text. A level looks like a
target, which goes up to an equals sign or an opening bracket whatever else it holds. -/
def dropName? : List Char → Option (List Char)
  | [] => none
  | '[' :: rest => dropSpan? rest
  | c :: rest =>
    if beginsTarget c then
      match rest.dropWhile fun c => c != '=' && c != '[' with
      | '[' :: rest => dropSpan? rest
      | rest => some rest
    else
      none

/-- Blanks around a part do not matter unless an equals sign follows the name. Behind the sign
stands a level or nothing. -/
def isPart (part : List Char) : Bool :=
  let trimmed := Text.trimBlanks part
  match dropName? trimmed with
  | some [] => true
  | some ('=' :: level) => trimmed == part && (level.isEmpty || isLevel level)
  | _ => false

end LogFilter

/-- The log filters that the command line lets pass, in place of the logging of the host: parts
between commas, empty ones of which do not matter. A part is a level alone, or it names a target, a
span in brackets, or both, and may then give a level behind an equals sign. -/
def isLogFilter (filter : String) : Bool :=
  ((filter.splitOn ",").filter (!·.isEmpty)).all fun part => LogFilter.isPart part.toList

end SchemaCast.CommandLine
