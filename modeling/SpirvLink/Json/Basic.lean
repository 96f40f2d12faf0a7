/-
  SpirvLink.Json.Basic — JSON values.

  A number keeps its digits as written. A string whose escapes leave half of a surrogate
  pair has no text; it may stand where nobody reads it.
-/

import SpirvLink.Text.Blank

namespace SpirvLink

inductive Json where
  | null
  | bool (b : Bool)
  | number (digits : Text)
  | string (text : Option Text)
  | array (items : List Json)
  | object (members : List (Option Text × Json))

namespace Json

def asText? : Json → Option Text
  | string text => text
  | _ => none

def asBool? : Json → Option Bool
  | bool b => some b
  | _ => none

end Json

end SpirvLink
