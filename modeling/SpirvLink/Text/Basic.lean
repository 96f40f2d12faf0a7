/-
  SpirvLink.Text.Basic — cutting a text into the parts that the format knows.

  `trim` drops the blanks at both ends, `words` gives the longest runs without a blank,
  `cutAt` splits at the first occurrence of a character, and `splitLines` ends a line at
  each line feed. All are structural recursions, so a closed text evaluates by `decide`.
-/

import SpirvLink.Text.Blank

namespace SpirvLink.Text

/-! ## Blanks at the ends -/

def trimStart (s : Text) : Text :=
  s.dropWhile isBlank

def trimEnd : Text → Text
  | [] => []
  | c :: s =>
    let rest := trimEnd s
    if isBlank c && rest.isEmpty then [] else c :: rest

def trim (s : Text) : Text :=
  trimEnd (trimStart s)

/-! ## Words -/

/-- Puts a run of characters in front of the words that follow it, unless it is empty. -/
def pushWord (w : Text) (ws : List Text) : List Text :=
  if w.isEmpty then ws else w :: ws

/-- The run of characters without a blank that starts a text, and the words after it. -/
def splitWord : Text → Text × List Text
  | [] => ([], [])
  | c :: s =>
    let (w, ws) := splitWord s
    if isBlank c then ([], pushWord w ws) else (c :: w, ws)

/-- The longest runs of characters without a blank, in order. -/
def words (s : Text) : List Text :=
  let (w, ws) := splitWord s
  pushWord w ws

/-- The words with one space between them. -/
def unwords : List Text → Text
  | [] => []
  | [w] => w
  | w :: v :: ws => w ++ ' ' :: unwords (v :: ws)

/-! ## Characters that divide -/

/-- The text before and after the first occurrence of a character. -/
def cutAt (d : Char) : Text → Option (Text × Text)
  | [] => none
  | c :: s => if c = d then some ([], s) else (cutAt d s).map fun (before, after) => (c :: before, after)

/-- The lines of a text. A line ends at a line feed, or at a carriage return followed by
    one; what follows the last line feed is a line only if it is not empty. -/
def splitLines : Text → List Text
  | [] => []
  | '\n' :: s => [] :: splitLines s
  | '\r' :: '\n' :: s => [] :: splitLines s
  | c :: s =>
    match splitLines s with
    | [] => [[c]]
    | l :: ls => (c :: l) :: ls

def hasBlank (s : Text) : Bool :=
  s.any isBlank

end SpirvLink.Text
