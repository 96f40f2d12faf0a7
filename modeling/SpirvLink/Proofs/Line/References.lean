/-
  SpirvLink.Proofs.Line.References — the identifiers that a line refers to.

  What stands between two quotation marks is a string, and no identifier in it is a
  reference; nor is one on a comment or before the equals sign. A renaming of operands
  renames the references and nothing else (`references_renameOperands`).
-/

import SpirvLink.Proofs.Line.Reading

namespace SpirvLink

namespace Text

/-- The identifiers among segments that stand outside quotation marks. The flag tells
    whether a quotation is open. -/
def unquotedFrom : Bool → List Segment → List Text
  | _, [] => []
  | quoted, .ident id :: gs => if quoted then unquotedFrom quoted gs else id :: unquotedFrom quoted gs
  | quoted, .other c :: gs => unquotedFrom (quoted != (c == '"')) gs

def unquotedIds (s : Text) : List Text :=
  unquotedFrom false (segments s)

variable {f : Text → Text} {s : Text}

theorem unquotedFrom_subset : ∀ (quoted : Bool) (gs : List Segment),
    unquotedFrom quoted gs ⊆ gs.filterMap Segment.ident?
  | _, [] => List.nil_subset _
  | false, .ident id :: gs => List.cons_subset_cons id (unquotedFrom_subset false gs)
  | true, .ident _ :: gs => List.subset_cons_of_subset _ (unquotedFrom_subset true gs)
  | quoted, .other c :: gs => unquotedFrom_subset (quoted != (c == '"')) gs

theorem unquotedIds_subset (s : Text) : unquotedIds s ⊆ identifiers s :=
  unquotedFrom_subset false (segments s)

/-- No identifier holds a quotation mark, so a renaming opens and closes no quotation. -/
theorem unquotedFrom_rename (f : Text → Text) : ∀ (quoted : Bool) (gs : List Segment),
    unquotedFrom quoted (gs.map (Segment.rename f)) = (unquotedFrom quoted gs).map f
  | _, [] => rfl
  | false, .ident id :: gs => congrArg (f id :: ·) (unquotedFrom_rename f false gs)
  | true, .ident _ :: gs => unquotedFrom_rename f true gs
  | quoted, .other c :: gs => unquotedFrom_rename f (quoted != (c == '"')) gs

theorem unquotedIds_renameIds (hf : ∀ id ∈ identifiers s, IsIdent (f id)) :
    unquotedIds (renameIds f s) = (unquotedIds s).map f := by
  rw [unquotedIds, segments_renameIds hf]
  exact unquotedFrom_rename f false (segments s)

end Text

namespace Line

variable {l : Line} {f : Text → Text}

/-- The identifiers that the line uses outside quotation marks. Comments use none. -/
def references (l : Line) : List Text :=
  if l.hasCode then Text.unquotedIds ((l.halves?.map Prod.snd).getD l.text) else []

/-- The lines define every identifier that one of them refers to. -/
def DefinesAll (ls : List Line) : Prop :=
  ∀ l ∈ ls, ∀ id ∈ l.references, id ∈ ls.filterMap defined?

instance (ls : List Line) : Decidable (DefinesAll ls) :=
  inferInstanceAs (Decidable (∀ _ ∈ _, _))

theorem references_subset (l : Line) : l.references ⊆ l.operandIds := by
  intro id hid
  unfold references at hid
  split at hid
  · unfold operandIds rhs?
    cases hs : l.halves? with
    | none =>
      rw [hs] at hid
      exact Text.unquotedIds_subset _ hid
    | some halves =>
      rw [hs] at hid
      have inside := Text.unquotedIds_subset _ hid
      rwa [Option.map_some, Option.getD_some, ← Text.identifiers_trim] at inside
  · cases hid

theorem references_renameOperands (hf : Text.Keeps f) (ident : ∀ id, Text.IsIdent id → Text.IsIdent (f id)) (l : Line) :
    (l.renameOperands f).references = l.references.map f := by
  have renamed : ∀ s, Text.unquotedIds (Text.renameIds f s) = (Text.unquotedIds s).map f :=
    fun s => Text.unquotedIds_renameIds fun id hid => ident id (Text.isIdent_of_mem hid)
  rw [references, references, (renamed_renameOperands hf).code]
  split
  · cases hs : l.halves? with
    | none =>
      rw [halves?_renameOperands_none hf hs, renameOperands_of_none hs]
      exact renamed l.text
    | some halves =>
      obtain ⟨before, after⟩ := halves
      rw [halves?_renameOperands hs]
      exact renamed after
  · rfl

end Line

end SpirvLink
