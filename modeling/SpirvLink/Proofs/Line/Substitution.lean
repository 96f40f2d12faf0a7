/-
  SpirvLink.Proofs.Line.Substitution — a renaming of identifiers changes them and nothing else.

  Every line is what a renaming of operands keeps and the text that it reads
  (`kept_append_used`): a definition is kept up to its equals sign, any other line is read
  from its start. The scanner finds again what was put in, whatever the new identifiers hold.
  So to replace an identifier is to replace it wherever it stands in the list of identifiers,
  and to rename the operands through a table is to look each one up once, all other text
  being what it was (`substitution_exact`).
-/

import SpirvLink.Proofs.Fusion.References

namespace SpirvLink

open Text

namespace Line

variable {l : Line} {old new : Text} {f : Text → Text}

/-! ## The part that is kept and the part that is read -/

/-- What a renaming of operands does not read: a definition up to its equals sign. -/
def kept (l : Line) : Text :=
  (l.halves?.map fun h => h.1 ++ ['=']).getD []

/-- What a renaming of operands reads. -/
def used (l : Line) : Text :=
  (l.halves?.map Prod.snd).getD l.text

theorem kept_append_used (l : Line) : l.kept ++ l.used = l.text := by
  unfold kept used
  cases hs : l.halves? with
  | none => rfl
  | some halves =>
    obtain ⟨htext, -⟩ := cutAt_eq_some.mp (halves?_eq_some.mp hs).1
    simp [htext]

theorem operandIds_eq_identifiers_used (l : Line) : l.operandIds = identifiers l.used := by
  unfold operandIds rhs? used
  cases l.halves? with
  | none => rfl
  | some halves => exact identifiers_trim halves.2

theorem countOperands_eq (renames : Text → Bool) (l : Line) : l.countOperands renames = l.operandIds.countP renames := by
  rw [operandIds_eq_identifiers_used, countOperands, used]
  cases l.halves? with
  | none => rfl
  | some halves => rfl

theorem kept_renameOperands (hf : Keeps f) (l : Line) : (l.renameOperands f).kept = l.kept := by
  rw [kept, kept]
  cases hs : l.halves? with
  | none => rw [halves?_renameOperands_none hf hs]
  | some halves => rw [halves?_renameOperands hs, Option.map_some, Option.map_some]

theorem used_renameOperands (hf : Keeps f) (l : Line) : (l.renameOperands f).used = Text.renameIds f l.used := by
  rw [used, used]
  cases hs : l.halves? with
  | none =>
    rw [halves?_renameOperands_none hf hs, renameOperands_of_none hs]
    rfl
  | some halves => rw [halves?_renameOperands hs]; rfl

/-! ## One identifier -/

theorem isIdent_only (hnew : IsIdent new) {id : Text} (hid : IsIdent id) : IsIdent (only old new id) :=
  only_of hnew hid

theorem count_map_only (hne : old ≠ new) (ids : List Text) :
    (ids.map (only old new)).count new = ids.count new + ids.count old := by
  induction ids with
  | nil => rfl
  | cons id ids ih =>
    rw [List.map_cons, List.count_cons, List.count_cons, List.count_cons, ih, only]
    by_cases ho : id = old
    · simp [ho, hne]
      omega
    · simp [ho]
      omega

theorem not_mem_map_only (hne : old ≠ new) (ids : List Text) : old ∉ ids.map (only old new) := by
  intro hm
  obtain ⟨id, -, hid⟩ := List.mem_map.mp hm
  unfold only at hid
  split at hid
  · exact hne hid.symm
  · next h => exact h hid

/-! ## Names in a table -/

theorem isIdent_apply {t : RenameTable} (ht : ∀ r ∈ t, IsIdent r.2) {id : Text} (hid : IsIdent id) : IsIdent (t.apply id) := by
  rcases t.apply_eq_or_mem id with he | ⟨r, hr, he⟩
  · rwa [he]
  · rw [he]
    exact ht r hr

/-- Replacing an identifier exchanges it wherever it is on the line, and counts where; renaming
    the operands through a table exchanges each one once, and counts those in the table. All
    other text stays. -/
theorem substitution_exact (l : Line) :
    (∀ old new, IsIdent new →
      l.countId old = l.ids.count old ∧
      (l.replaceId old new).ids = l.ids.map (only old new) ∧
      segments (l.replaceId old new).text = (segments l.text).map (Segment.rename (only old new)) ∧
      (old ≠ new → old ∉ (l.replaceId old new).ids ∧
        (l.replaceId old new).countId new = l.countId new + l.countId old)) ∧
    ∀ t : RenameTable, (∀ r ∈ t, IsIdent r.2 ∧ '=' ∉ r.2) →
      (l.renameOperands t.apply).defined? = l.defined? ∧
      (l.renameOperands t.apply).kept = l.kept ∧
      (l.renameOperands t.apply).operandIds = l.operandIds.map t.apply ∧
      segments (l.renameOperands t.apply).used = (segments l.used).map (Segment.rename t.apply) ∧
      l.countOperands (fun id => (t.lookup id).isSome) = l.operandIds.countP fun id => (t.lookup id).isSome := by
  constructor
  · intro old new hnew
    have ident : ∀ id ∈ identifiers l.text, IsIdent (only old new id) := fun id hid =>
      isIdent_only hnew (isIdent_of_mem hid)
    have ids : (l.replaceId old new).ids = l.ids.map (only old new) := identifiers_renameIds ident
    refine ⟨rfl, ids, segments_renameIds ident, fun hne => ⟨ids ▸ not_mem_map_only hne l.ids, ?_⟩⟩
    rw [countId, ids, count_map_only hne]
    rfl
  · intro t ht
    have keeps : Keeps t.apply := Fusion.keeps_apply fun r hr => (ht r hr).1.isName (ht r hr).2
    have ident : ∀ id ∈ identifiers l.used, IsIdent (t.apply id) := fun id hid =>
      isIdent_apply (fun r hr => (ht r hr).1) (isIdent_of_mem hid)
    refine ⟨defined?_renameOperands keeps l, kept_renameOperands keeps l, ?_, ?_, countOperands_eq _ l⟩
    · rw [operandIds_eq_identifiers_used, operandIds_eq_identifiers_used, used_renameOperands keeps]
      exact identifiers_renameIds ident
    · rw [used_renameOperands keeps]
      exact segments_renameIds ident

/-- A sum whose result is named like its operands. -/
def sumLine : Line :=
  ⟨"%p2 = OpIAdd %uint %p %p".toList⟩

/-- The new identifier holds the old one and is on the line already; the table exchanges two. -/
theorem substitution_exact_sum :
    (sumLine.replaceId "%p".toList "%p2".toList).ids = ["%p2", "%uint", "%p2", "%p2"].map String.toList ∧
      (sumLine.replaceId "%p".toList "%p2".toList).countId "%p2".toList = 3 ∧
      (sumLine.renameOperands (RenameTable.apply [("%p".toList, "%uint".toList), ("%uint".toList, "%p".toList)])).operandIds =
        ["%p", "%uint", "%uint"].map String.toList ∧
      sumLine.countOperands (fun id => (List.lookup id [("%p".toList, "%uint".toList), ("%uint".toList, "%p".toList)]).isSome) = 3 := by
  obtain ⟨-, ids, -, others⟩ := (substitution_exact sumLine).1 "%p".toList "%p2".toList (by decide)
  obtain ⟨-, -, operands, -, count⟩ := (substitution_exact sumLine).2 [("%p".toList, "%uint".toList), ("%uint".toList, "%p".toList)]
    (by decide)
  have more := (others (by decide)).2
  exact ⟨ids.trans (by decide +kernel), more.trans (by decide +kernel), operands.trans (by decide +kernel),
    count.trans (by decide +kernel)⟩

end Line

end SpirvLink
