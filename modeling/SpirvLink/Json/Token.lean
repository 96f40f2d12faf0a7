/-
  SpirvLink.Json.Token — the tokens of a JSON text.

  The blanks between tokens are space, tab, line feed and carriage return alone. Strings
  hold no control characters; numbers have no leading zeros and a digit on each side of
  the point.
-/

import SpirvLink.Json.Basic

namespace SpirvLink.Json

inductive Token where
  | openObject
  | closeObject
  | openArray
  | closeArray
  | colon
  | comma
  | scalar (value : Json)

def isSpace (c : Char) : Bool :=
  c == ' ' || c == '\t' || c == '\n' || c == '\r'

/-! ## Strings -/

/-- A character of a string, or half of a surrogate pair. -/
inductive StringPart where
  | char (c : Char)
  | surrogate (code : Nat)
deriving DecidableEq

def StringPart.ofCode (code : Nat) : StringPart :=
  if 0xD800 ≤ code && code < 0xE000 then surrogate code else char (Char.ofNat code)

def hexDigit? (c : Char) : Option Nat :=
  if c.isDigit then some (c.toNat - '0'.toNat)
  else if 'a' ≤ c && c ≤ 'f' then some (c.toNat - 'a'.toNat + 10)
  else if 'A' ≤ c && c ≤ 'F' then some (c.toNat - 'A'.toNat + 10)
  else none

def hexCode? (a b c d : Char) : Option Nat := do
  return (((← hexDigit? a) * 16 + (← hexDigit? b)) * 16 + (← hexDigit? c)) * 16 + (← hexDigit? d)

/-- The character that a backslash and a letter stand for. -/
def escaped? : Char → Option Char
  | '"' => some '"'
  | '\\' => some '\\'
  | '/' => some '/'
  | 'b' => some '\x08'
  | 'f' => some '\x0c'
  | 'n' => some '\n'
  | 'r' => some '\r'
  | 't' => some '\t'
  | _ => none

/-- The parts of a string up to its closing quotation mark, and the text after that. -/
def stringParts : Text → Option (List StringPart × Text)
  | [] => none
  | '"' :: s => some ([], s)
  | '\\' :: 'u' :: a :: b :: c :: d :: s => do
    let code ← hexCode? a b c d
    let (parts, rest) ← stringParts s
    return (.ofCode code :: parts, rest)
  | '\\' :: e :: s => do
    let c ← escaped? e
    let (parts, rest) ← stringParts s
    return (.char c :: parts, rest)
  | c :: s => do
    if c.toNat < 0x20 then none
    let (parts, rest) ← stringParts s
    return (.char c :: parts, rest)

/-- The character that a surrogate pair stands for. -/
def pairChar (high low : Nat) : Char :=
  Char.ofNat (0x10000 + (high - 0xD800) * 0x400 + (low - 0xDC00))

/-- Joins surrogate pairs; none if half a pair is left. -/
def textOfParts : List StringPart → Option Text
  | [] => some []
  | .char c :: ps => (textOfParts ps).map (c :: ·)
  | .surrogate high :: .surrogate low :: ps =>
    if high < 0xDC00 && 0xDC00 ≤ low then (textOfParts ps).map (pairChar high low :: ·) else none
  | .surrogate _ :: _ => none

/-! ## Numbers -/

/-- A run of at least one digit, and the text after it. -/
def digits? (s : Text) : Option (Text × Text) :=
  if (s.takeWhile Char.isDigit).isEmpty then none
  else some (s.takeWhile Char.isDigit, s.dropWhile Char.isDigit)

/-- A digit run that is only `0` if it starts so. -/
def integer? (s : Text) : Option (Text × Text) :=
  match s with
  | '0' :: rest => some (['0'], rest)
  | _ => digits? s

def fraction? (s : Text) : Option (Text × Text) :=
  match s with
  | '.' :: rest => (digits? rest).map fun (ds, r) => ('.' :: ds, r)
  | _ => some ([], s)

def takeSign (s : Text) : Text × Text :=
  match s with
  | '+' :: rest => (['+'], rest)
  | '-' :: rest => (['-'], rest)
  | _ => ([], s)

def exponent? (s : Text) : Option (Text × Text) :=
  match s with
  | c :: rest =>
    if c == 'e' || c == 'E' then
      (digits? (takeSign rest).2).map fun (ds, r) => (c :: (takeSign rest).1 ++ ds, r)
    else some ([], s)
  | [] => some ([], [])

def number? (s : Text) : Option (Text × Text) := do
  let (minus, s) := match s with
    | '-' :: rest => (['-'], rest)
    | _ => ([], s)
  let (whole, s) ← integer? s
  let (part, s) ← fraction? s
  let (power, s) ← exponent? s
  return (minus ++ whole ++ part ++ power, s)

/-! ## Tokens -/

def word? (word : Text) (value : Json) (s : Text) : Option (Token × Text) :=
  if word.isPrefixOf s then some (.scalar value, s.drop word.length) else none

/-- The token that starts with a character, and the text after the token. -/
def token? (c : Char) (s : Text) : Option (Token × Text) :=
  match c with
  | '\x7b' => some (.openObject, s)
  | '\x7d' => some (.closeObject, s)
  | '[' => some (.openArray, s)
  | ']' => some (.closeArray, s)
  | ':' => some (.colon, s)
  | ',' => some (.comma, s)
  | '"' => (stringParts s).map fun (parts, rest) => (.scalar (.string (textOfParts parts)), rest)
  | 'n' => word? "ull".toList .null s
  | 't' => word? "rue".toList (.bool true) s
  | 'f' => word? "alse".toList (.bool false) s
  | _ => (number? (c :: s)).map fun (digits, rest) => (.scalar (.number digits), rest)

/-- The tokens of a text. A step takes a character or more, so a fuel above the length of
    the text is enough. -/
def tokensFrom : Nat → Text → Option (List Token)
  | _, [] => some []
  | 0, _ => none
  | fuel + 1, c :: s =>
    if isSpace c then tokensFrom fuel s
    else do
      let (t, rest) ← token? c s
      return t :: (← tokensFrom fuel rest)

def tokens (s : Text) : Option (List Token) :=
  tokensFrom s.length s

end SpirvLink.Json
