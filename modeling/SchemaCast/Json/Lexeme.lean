import SchemaCast.Number.Leading
import SchemaCast.Number.Scaled

namespace SchemaCast.Json

/-- A string keeps its text unless it has an escaped surrogate without its partner; such a string
is well written but names no text. A number is what scaling its digits gives, infinite where that
leaves the doubles. -/
inductive Lexeme where
  | openArray
  | closeArray
  | openObject
  | closeObject
  | colon
  | comma
  | null
  | bool (b : Bool)
  | number (n : Number)
  | string (text? : Option String)
  deriving DecidableEq

/-- A piece of a written string: a character, or an escaped unit of UTF-16. -/
inductive StringPiece where
  | char (c : Char)
  | unit (n : Nat)
  deriving DecidableEq

/-- The value of a hexadecimal digit. -/
def hexDigit? (c : Char) : Option Nat :=
  if '0' ≤ c ∧ c ≤ '9' then some (c.toNat - '0'.toNat)
  else if 'a' ≤ c ∧ c ≤ 'f' then some (c.toNat - 'a'.toNat + 10)
  else if 'A' ≤ c ∧ c ≤ 'F' then some (c.toNat - 'A'.toNat + 10)
  else none

/-- The unit that four hexadecimal digits write. -/
def hexUnit? (a b c d : Char) : Option Nat := do
  return ((← hexDigit? a) * 16 + (← hexDigit? b)) * 256 + (← hexDigit? c) * 16 + (← hexDigit? d)

/-- The character that an escape letter stands for. -/
def escapedChar? (c : Char) : Option Char :=
  if c = '"' ∨ c = '\\' ∨ c = '/' then some c
  else if c = 'b' then some (Char.ofNat 8)
  else if c = 'f' then some (Char.ofNat 12)
  else if c = 'n' then some '\n'
  else if c = 'r' then some '\r'
  else if c = 't' then some '\t'
  else none

/-- The pieces of a string up to its closing quote, and what follows it. Controls below space
stand in a string only as escapes. -/
def takePieces? : List Char → Option (List StringPiece × List Char)
  | [] => none
  | '"' :: rest => some ([], rest)
  | '\\' :: 'u' :: a :: b :: c :: d :: rest => do
    let n ← hexUnit? a b c d
    let (pieces, rest) ← takePieces? rest
    return (.unit n :: pieces, rest)
  | '\\' :: letter :: rest => do
    let c ← escapedChar? letter
    let (pieces, rest) ← takePieces? rest
    return (.char c :: pieces, rest)
  | c :: rest =>
    if c = '\\' ∨ c.toNat < 32 then none
    else do
      let (pieces, rest) ← takePieces? rest
      return (.char c :: pieces, rest)

def isHighSurrogate (n : Nat) : Bool := 0xD800 ≤ n && n < 0xDC00

def isLowSurrogate (n : Nat) : Bool := 0xDC00 ≤ n && n < 0xE000

/-- The characters of the pieces of a string: a high surrogate and the low one behind it make one
character, and any other surrogate makes none. -/
def charsOfPieces? : List StringPiece → Option (List Char)
  | [] => some []
  | .char c :: rest => (charsOfPieces? rest).map (c :: ·)
  | .unit high :: .unit low :: rest =>
    if isHighSurrogate high && isLowSurrogate low then
      let c := Char.ofNat (0x10000 + (high - 0xD800) * 0x400 + (low - 0xDC00))
      (charsOfPieces? rest).map (c :: ·)
    else if isHighSurrogate high || isLowSurrogate high then none
    else (charsOfPieces? (.unit low :: rest)).map (Char.ofNat high :: ·)
  | .unit n :: rest =>
    if isHighSurrogate n || isLowSurrogate n then none
    else (charsOfPieces? rest).map (Char.ofNat n :: ·)

/-- The whole part of a number: a zero alone, or digits that do not begin with zero. -/
def takeWhole? : List Char → Option (List Char × List Char)
  | '0' :: rest => some (['0'], rest)
  | cs =>
    match Number.takeDigits cs with
    | ([], _) => none
    | (digits, rest) => some (digits, rest)

/-- The fraction of a number: a point and the digits that have to follow it, or nothing. -/
def takeFraction? : List Char → Option (List Char × List Char)
  | '.' :: cs =>
    match Number.takeDigits cs with
    | ([], _) => none
    | (digits, rest) => some (digits, rest)
  | cs => some ([], cs)

/-- The exponent of a number, or zero; the letter `e` has to be followed by an exponent. -/
def takePower? : List Char → Option (Int × List Char)
  | [] => some (0, [])
  | c :: cs => if c = 'e' ∨ c = 'E' then Number.takeExponent? (c :: cs) else some (0, c :: cs)

/-- The number at the front of a text. -/
def takeNumber? (cs : List Char) : Option (Number × List Char) := do
  let (negative, cs) := match cs with
    | '-' :: rest => (true, rest)
    | _ => (false, cs)
  let (whole, cs) ← takeWhole? cs
  let (fraction, cs) ← takeFraction? cs
  let (exponent, cs) ← takePower? cs
  return ((Scaled.ofParts whole fraction exponent).toNumber negative, cs)

/-- The lexeme at the front of a text that does not begin with space. -/
def takeLexeme? : List Char → Option (Lexeme × List Char)
  | '[' :: rest => some (.openArray, rest)
  | ']' :: rest => some (.closeArray, rest)
  | '{' :: rest => some (.openObject, rest)
  | '}' :: rest => some (.closeObject, rest)
  | ':' :: rest => some (.colon, rest)
  | ',' :: rest => some (.comma, rest)
  | 'n' :: 'u' :: 'l' :: 'l' :: rest => some (.null, rest)
  | 't' :: 'r' :: 'u' :: 'e' :: rest => some (.bool true, rest)
  | 'f' :: 'a' :: 'l' :: 's' :: 'e' :: rest => some (.bool false, rest)
  | '"' :: rest => (takePieces? rest).map fun (pieces, rest) =>
    (.string ((charsOfPieces? pieces).map String.ofList), rest)
  | cs => (takeNumber? cs).map fun (n, rest) => (.number n, rest)

/-- The space between lexemes: space, tab, line feed and carriage return. -/
def isSpace (c : Char) : Bool :=
  c == ' ' || c == '\t' || c == '\n' || c == '\r'

/-- The lexemes of a text, if it has at most the given number of them. -/
def lexemesWithin? : Nat → List Char → Option (List Lexeme)
  | limit, cs =>
    match cs.dropWhile isSpace, limit with
    | [], _ => some []
    | _, 0 => none
    | cs, limit + 1 => do
      let (lexeme, rest) ← takeLexeme? cs
      let lexemes ← lexemesWithin? limit rest
      return lexeme :: lexemes

/-- The lexemes of a text; every lexeme takes a character at least. -/
def lexemes? (cs : List Char) : Option (List Lexeme) :=
  lexemesWithin? cs.length cs

end SchemaCast.Json
