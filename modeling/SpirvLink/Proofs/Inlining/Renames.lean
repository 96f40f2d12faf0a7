/-
  SpirvLink.Proofs.Inlining.Renames — renames made one after the other are one renaming.

  A pass makes its renames over all lines, the newest first. That renames every line once,
  by their composition (`applyAll_eq_map`). Where no rename brings back a name that it or a
  newer one takes away (`Chained`), the names taken away are gone at the end
  (`composed_not_mem_olds`), and an old name ends as its new one does (`composed_old`).
-/

import SpirvLink.Inlining.Copy
import SpirvLink.Proofs.Line.WellSpaced

namespace SpirvLink.Rename

/-- What becomes of an identifier when the renames are made one by one, the last one first. -/
def composed (rs : List Rename) (id : Text) : Text :=
  rs.foldr (fun r id => Text.only r.old r.new id) id

theorem composed_cons (r : Rename) (rs : List Rename) (id : Text) :
    composed (r :: rs) id = if composed rs id = r.old then r.new else composed rs id := rfl

theorem composed_append (rs ss : List Rename) (id : Text) :
    composed (rs ++ ss) id = composed rs (composed ss id) :=
  List.foldr_append ..

theorem effective_append (rs ss : List Rename) : effective (rs ++ ss) = effective rs ++ effective ss :=
  List.filter_append ..

/-- A renaming of a name to itself makes no difference. -/
theorem composed_effective (rs : List Rename) : composed (effective rs) = composed rs := by
  funext id
  induction rs with
  | nil => rfl
  | cons r rs ih =>
    rw [composed_cons, ← ih]
    by_cases hr : r.old = r.new
    · rw [effective, List.filter_cons_of_neg (by simp [hr]), ← effective]
      split
      · next he => rw [he, hr]
      · rfl
    · rw [effective, List.filter_cons_of_pos (by simp [hr]), composed_cons]
      rfl

theorem composed_of_not_mem {rs : List Rename} {id : Text} (h : id ∉ rs.map Rename.old) :
    composed rs id = id := by
  induction rs with
  | nil => rfl
  | cons r rs ih =>
    rw [List.map_cons, List.mem_cons, not_or] at h
    rw [composed_cons, ih h.2, if_neg h.1]

theorem composed_eq_or_mem (rs : List Rename) (id : Text) :
    composed rs id = id ∨ ∃ r ∈ rs, composed rs id = r.new := by
  induction rs with
  | nil => exact Or.inl rfl
  | cons r rs ih =>
    rw [composed_cons]
    split
    · exact Or.inr ⟨r, List.mem_cons_self .., rfl⟩
    · rcases ih with he | ⟨s, hs, he⟩
      · exact Or.inl he
      · exact Or.inr ⟨s, List.mem_cons_of_mem _ hs, he⟩

/-- Renames that lead from identifiers to identifiers never leave them. -/
theorem isIdent_composed_of_olds {rs : List Rename} (h : ∀ r ∈ rs, Text.IsIdent r.old → Text.IsIdent r.new) {id : Text}
    (hid : Text.IsIdent id) : Text.IsIdent (composed rs id) := by
  induction rs with
  | nil => exact hid
  | cons r rs ih =>
    obtain ⟨hr, hrs⟩ := List.forall_mem_cons.mp h
    rw [composed_cons]
    split
    · next he => exact hr (he ▸ ih hrs)
    · exact ih hrs

theorem isIdent_composed {rs : List Rename} (h : ∀ r ∈ rs, Text.IsIdent r.new) {id : Text} (hid : Text.IsIdent id) :
    Text.IsIdent (composed rs id) :=
  isIdent_composed_of_olds (fun r hr _ => h r hr) hid

/-- The renames one by one are the composed renaming of every line. -/
theorem applyAll_eq_map_of_olds {rs : List Rename} (h : ∀ r ∈ rs, Text.IsIdent r.old → Text.IsIdent r.new)
    (lines : List Line) : applyAll rs lines = lines.map (Line.renameIds (composed rs)) := by
  induction rs with
  | nil =>
    refine (List.map_id'' (fun l => ?_) lines).symm
    exact Line.renameIds_of_eq fun _ _ => rfl
  | cons r rs ih =>
    have hrs := fun s hs => h s (List.mem_cons_of_mem _ hs)
    show (applyAll rs lines).map _ = _
    rw [ih hrs, List.map_map]
    refine List.map_congr_left fun l _ => ?_
    exact Line.renameIds_renameIds (Text.only r.old r.new) fun id hid =>
      isIdent_composed_of_olds hrs (Text.isIdent_of_mem hid)

theorem applyAll_eq_map {rs : List Rename} (h : ∀ r ∈ rs, Text.IsIdent r.new) (lines : List Line) :
    applyAll rs lines = lines.map (Line.renameIds (composed rs)) :=
  applyAll_eq_map_of_olds (fun r hr _ => h r hr) lines

/-! ## Names taken away -/

/-- No rename has as its new name one that it or a later one of the list takes away, and no
    name is taken away twice. -/
structure Chained (rs : List Rename) : Prop where
  moves : ∀ r ∈ rs, r.new ≠ r.old
  later : rs.Pairwise fun r s => r.new ≠ s.old ∧ r.old ≠ s.old

theorem chained_append {rs ss : List Rename} : Chained (rs ++ ss) ↔
    Chained rs ∧ Chained ss ∧ ∀ r ∈ rs, ∀ s ∈ ss, r.new ≠ s.old ∧ r.old ≠ s.old := by
  constructor
  · rintro ⟨moves, later⟩
    rw [List.forall_mem_append] at moves
    rw [List.pairwise_append] at later
    exact ⟨⟨moves.1, later.1⟩, ⟨moves.2, later.2.1⟩, later.2.2⟩
  · rintro ⟨hr, hs, hrs⟩
    exact ⟨List.forall_mem_append.mpr ⟨hr.moves, hs.moves⟩, List.pairwise_append.mpr ⟨hr.later, hs.later, hrs⟩⟩

namespace Chained

variable {r : Rename} {rs : List Rename}

theorem tail (h : Chained (r :: rs)) : Chained rs :=
  ⟨fun s hs => h.moves s (List.mem_cons_of_mem _ hs), (List.pairwise_cons.mp h.later).2⟩

theorem new_not_mem_olds (h : Chained (r :: rs)) : r.new ∉ (r :: rs).map Rename.old := by
  intro hmem
  obtain ⟨s, hs, heq⟩ := List.mem_map.mp hmem
  rcases List.mem_cons.mp hs with rfl | hs
  · exact h.moves s (List.mem_cons_self ..) heq.symm
  · exact ((List.pairwise_cons.mp h.later).1 s hs).1 heq.symm

theorem old_not_mem_olds (h : Chained (r :: rs)) : r.old ∉ rs.map Rename.old := by
  intro hmem
  obtain ⟨s, hs, heq⟩ := List.mem_map.mp hmem
  exact ((List.pairwise_cons.mp h.later).1 s hs).2 heq.symm

end Chained

theorem composed_not_mem_olds {rs : List Rename} (h : Chained rs) (id : Text) :
    composed rs id ∉ rs.map Rename.old := by
  induction rs with
  | nil => exact List.not_mem_nil
  | cons r rs ih =>
    rw [composed_cons]
    split
    · exact h.new_not_mem_olds
    · next hne =>
      rw [List.map_cons, List.mem_cons, not_or]
      exact ⟨hne, ih h.tail⟩

theorem composed_old {rs : List Rename} (h : Chained rs) {r : Rename} (hr : r ∈ rs) :
    composed rs r.old = composed rs r.new := by
  induction rs with
  | nil => cases hr
  | cons s rs ih =>
    rw [composed_cons, composed_cons]
    rcases List.mem_cons.mp hr with rfl | hr
    · have gone := h.new_not_mem_olds
      rw [List.map_cons, List.mem_cons, not_or] at gone
      rw [composed_of_not_mem h.old_not_mem_olds, if_pos rfl, composed_of_not_mem gone.2, if_neg gone.1]
    · rw [ih h.tail hr]

end SpirvLink.Rename
