/-
  SpirvLink.Line.Edit — changing a line in place of the identifiers and texts on it.

  Identifiers are replaced as whole tokens, and all of them in one reading of the line, so
  a name that was put in is never replaced again.
-/

import SpirvLink.Line.Basic
import SpirvLink.Text.Literal

namespace SpirvLink.Line

def trim (l : Line) : Line :=
  ⟨Text.trim l.text⟩

/-- What is left of a deleted line until its block is swept. -/
def blank : Line :=
  ⟨[]⟩

/-! ## Identifiers -/

/-- Puts a prefix behind the percent sign of every identifier. -/
def prefixIds (p : Text) (l : Line) : Line :=
  ⟨Text.prefixIds p l.text⟩

def renameIds (f : Text → Text) (l : Line) : Line :=
  ⟨Text.renameIds f l.text⟩

def replaceId (old new : Text) (l : Line) : Line :=
  l.renameIds (Text.only old new)

def countId (id : Text) (l : Line) : Nat :=
  l.ids.count id

def replaceFirstId? (old new : Text) (l : Line) : Option Line :=
  (Text.replaceFirstId? old new l.text).map Line.mk

/-- Renames the identifiers that the line uses and keeps the one it defines. -/
def renameOperands (f : Text → Text) (l : Line) : Line :=
  match l.halves? with
  | some (before, after) => ⟨before ++ '=' :: Text.renameIds f after⟩
  | none => l.renameIds f

/-- The number of identifiers that a renaming of operands meets where it says so. -/
def countOperands (renames : Text → Bool) (l : Line) : Nat :=
  match l.halves? with
  | some (_, after) => (Text.identifiers after).countP renames
  | none => l.ids.countP renames

/-! ## Literal text -/

def replaceLiteral (pattern new : Text) (l : Line) : Line :=
  ⟨Text.replaceAll pattern new l.text⟩

def countLiteral (pattern : Text) (l : Line) : Nat :=
  Text.countLiteral pattern l.text

def replaceFirstLiteral? (pattern new : Text) (l : Line) : Option Line :=
  (Text.replaceFirst? pattern new l.text).map Line.mk

end SpirvLink.Line
