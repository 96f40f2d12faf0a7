/-
  SpirvLink.Text.Literal — literal occurrences of a pattern in a text.

  The occurrences are found from left to right and do not overlap. `pieces` shows them
  in place, and replacing and counting are two readings of the pieces, so they agree on
  what was found. The empty pattern occurs before every character and at the end.
-/

import SpirvLink.Text.Blank

namespace SpirvLink.Text

/-- A part of a searched text: an occurrence of the pattern, or a character of no occurrence. -/
inductive Piece where
  | found
  | kept (c : Char)
deriving DecidableEq

/-- What a piece becomes when the pattern is replaced. -/
def Piece.text (new : Text) : Piece → Text
  | .found => new
  | .kept c => [c]

/-- The pieces of a text whose first `n` characters belong to an occurrence already found.
    The pattern is not empty. -/
def piecesAfter (pattern : Text) : Nat → Text → List Piece
  | _, [] => []
  | n + 1, _ :: s => piecesAfter pattern n s
  | 0, c :: s =>
    if pattern.isPrefixOf (c :: s) then .found :: piecesAfter pattern (pattern.length - 1) s
    else .kept c :: piecesAfter pattern 0 s

def pieces (pattern s : Text) : List Piece :=
  if pattern.isEmpty then .found :: s.flatMap fun c => [.kept c, .found]
  else piecesAfter pattern 0 s

def replaceAll (pattern new s : Text) : Text :=
  (pieces pattern s).flatMap (Piece.text new)

/-- The number of occurrences that `replaceAll` replaces. -/
def countLiteral (pattern s : Text) : Nat :=
  (pieces pattern s).count .found

/-- The text with the first occurrence replaced, if there is one. -/
def replaceFirst? (pattern new : Text) : Text → Option Text
  | [] => if pattern.isEmpty then some new else none
  | c :: s =>
    if pattern.isPrefixOf (c :: s) then some (new ++ (c :: s).drop pattern.length)
    else (replaceFirst? pattern new s).map (c :: ·)

def occurs (pattern s : Text) : Bool :=
  (replaceFirst? pattern [] s).isSome

end SpirvLink.Text
