/-
  SpirvLink.Json.Parser — the value that a JSON text stands for.
-/

import SpirvLink.Json.Token

namespace SpirvLink.Json

mutual

/-- A value at the start of the tokens, and the tokens after it. -/
def valueFrom : Nat → List Token → Option (Json × List Token)
  | 0, _ => none
  | _ + 1, .scalar v :: ts => some (v, ts)
  | _ + 1, .openArray :: .closeArray :: ts => some (array [], ts)
  | fuel + 1, .openArray :: ts => (itemsFrom fuel ts).map fun (vs, rest) => (array vs, rest)
  | _ + 1, .openObject :: .closeObject :: ts => some (object [], ts)
  | fuel + 1, .openObject :: ts => (membersFrom fuel ts).map fun (ms, rest) => (object ms, rest)
  | _ + 1, _ => none

/-- One item or more, up to the end of the array. -/
def itemsFrom : Nat → List Token → Option (List Json × List Token)
  | 0, _ => none
  | fuel + 1, ts =>
    match valueFrom fuel ts with
    | some (v, .closeArray :: rest) => some ([v], rest)
    | some (v, .comma :: rest) => (itemsFrom fuel rest).map fun (vs, rest) => (v :: vs, rest)
    | _ => none

/-- One member or more, up to the end of the object. -/
def membersFrom : Nat → List Token → Option (List (Option Text × Json) × List Token)
  | 0, _ => none
  | fuel + 1, .scalar (.string key) :: .colon :: ts =>
    match valueFrom fuel ts with
    | some (v, .closeObject :: rest) => some ([(key, v)], rest)
    | some (v, .comma :: rest) =>
      (membersFrom fuel rest).map fun (ms, rest) => ((key, v) :: ms, rest)
    | _ => none
  | _ + 1, _ => none

end

/-- The value of a text that holds one value and nothing else. Of two nested steps of the
    reading at least one takes a token, so twice the number of tokens is fuel enough. -/
def parse (s : Text) : Option Json := do
  let ts ← tokens s
  match valueFrom (2 * ts.length + 2) ts with
  | some (v, []) => some v
  | _ => none

end SpirvLink.Json
