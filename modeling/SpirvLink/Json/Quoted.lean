/-
  SpirvLink.Json.Quoted — a text as a JSON string.

  Quotation marks, backslashes and control characters are escaped, and nothing else; a
  control character without a letter of its own has its code in four hexadecimal digits.
-/

import SpirvLink.Text.Blank

namespace SpirvLink.Json

def hexDigit (n : Nat) : Char :=
  Nat.digitChar (n % 16)

def escape (c : Char) : Text :=
  match c with
  | '"' => "\\\"".toList
  | '\\' => "\\\\".toList
  | '\x08' => "\\b".toList
  | '\x0c' => "\\f".toList
  | '\n' => "\\n".toList
  | '\r' => "\\r".toList
  | '\t' => "\\t".toList
  | _ => if c.toNat < 0x20 then "\\u00".toList ++ [hexDigit (c.toNat / 16), hexDigit c.toNat] else [c]

def quote (s : Text) : Text :=
  '"' :: s.flatMap escape ++ ['"']

end SpirvLink.Json
