/-
  SpirvLink.Text.Ident — the identifiers in a text.

  An identifier starts at a percent sign outside any identifier and runs to the next
  blank, quotation mark or end of the text; a percent sign inside it is part of it.
  `segments` cuts a text into its identifiers and the characters between them, and
  every renaming maps the segments and joins them again.

  Results: the segments join to the text (`flatMap_segments`), so renaming by the
  identity changes nothing (`renameIds_id`).
-/

import SpirvLink.Text.Blank

namespace SpirvLink.Text

/-- The character that starts an identifier. -/
def sigil : Char := '%'

def endsIdent (c : Char) : Bool :=
  isBlank c || c == '"'

inductive Segment where
  | ident (id : Text)
  | other (c : Char)
deriving DecidableEq

namespace Segment

def text : Segment → Text
  | ident id => id
  | other c => [c]

def ident? : Segment → Option Text
  | ident id => some id
  | other _ => none

/-- Renames an identifier and keeps any other character. -/
def rename (f : Text → Text) : Segment → Segment
  | ident id => ident (f id)
  | other c => other c

end Segment

/-! ## Scanning -/

/-- Scans a text, inside an identifier or outside. The first part is what the open
    identifier takes from the text, the second the segments that follow. -/
def scan : Bool → Text → Text × List Segment
  | _, [] => ([], [])
  | true, c :: s =>
    if endsIdent c then ([], .other c :: (scan false s).2)
    else
      let (id, gs) := scan true s
      (c :: id, gs)
  | false, c :: s =>
    if c = sigil then
      let (id, gs) := scan true s
      ([], .ident (c :: id) :: gs)
    else ([], .other c :: (scan false s).2)

def segments (s : Text) : List Segment :=
  (scan false s).2

/-- The identifiers of a text, in order. -/
def identifiers (s : Text) : List Text :=
  (segments s).filterMap Segment.ident?

/-! ## Renaming -/

/-- Renames every identifier, all at once. -/
def renameIds (f : Text → Text) (s : Text) : Text :=
  (segments s).flatMap fun g => (g.rename f).text

/-- The renaming of one identifier. -/
def only (old new : Text) (id : Text) : Text :=
  if id = old then new else id

/-- The segments with the first occurrence of an identifier renamed, if it occurs. -/
def renameFirst? (old new : Text) : List Segment → Option (List Segment)
  | [] => none
  | .ident id :: gs =>
    if id = old then some (.ident new :: gs) else (renameFirst? old new gs).map (.ident id :: ·)
  | .other c :: gs => (renameFirst? old new gs).map (.other c :: ·)

/-- The text with the first occurrence of an identifier renamed, if it occurs. -/
def replaceFirstId? (old new s : Text) : Option Text :=
  (renameFirst? old new (segments s)).map (·.flatMap Segment.text)

/-- Puts a text behind every percent sign, inside identifiers too. -/
def prefixIds (p s : Text) : Text :=
  s.flatMap fun c => if c = sigil then sigil :: p else [c]

/-! ## Nothing is lost -/

theorem scan_true_false (s : Text) :
    (scan true s).1 ++ (scan true s).2.flatMap Segment.text = s ∧
      (scan false s).2.flatMap Segment.text = s := by
  induction s with
  | nil => exact ⟨rfl, rfl⟩
  | cons c s ih =>
    constructor
    · rw [scan]
      split
      · simp [Segment.text, ih.2]
      · simp [ih.1]
    · rw [scan]
      split
      · simp [Segment.text, ih.1]
      · simp [Segment.text, ih.2]

/-- The segments of a text join to the text. -/
theorem flatMap_segments (s : Text) : (segments s).flatMap Segment.text = s :=
  (scan_true_false s).2

theorem renameIds_id (s : Text) : renameIds id s = s := by
  have same : (fun g : Segment => (g.rename id).text) = Segment.text := by
    funext g
    cases g <;> rfl
  rw [renameIds, same, flatMap_segments]

end SpirvLink.Text
