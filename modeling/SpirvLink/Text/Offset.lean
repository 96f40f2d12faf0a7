/-
  SpirvLink.Text.Offset — positions in a text counted in bytes of its UTF-8 form.
-/

import SpirvLink.Text.Blank

namespace SpirvLink.Text

/-- The text from a byte offset on; none past the end or inside a character. -/
def dropBytes : Nat → Text → Option Text
  | 0, s => some s
  | _ + 1, [] => none
  | n + 1, c :: s => if c.utf8Size ≤ n + 1 then dropBytes (n + 1 - c.utf8Size) s else none

end SpirvLink.Text
