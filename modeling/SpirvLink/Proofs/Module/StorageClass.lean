/-
  SpirvLink.Proofs.Module.StorageClass — what is left of a storage class that is moved.

  Moving a storage class reads each line once for the class behind a space and once for the
  class between underscores. Neither reading makes or breaks what the other looks for, so each
  leaves what it leaves on its own (`text_moved_word`, `text_moved_name`): a class that shared an
  underscore with another, and, where the new class starts the old one, a class that what stood
  behind an occurrence completes. On all other lines nothing is left, and then moving the class
  again counts nothing and changes nothing (`moveStorageClass_leaves_iff`). A pointer to a type
  whose name starts with the class is an example of the first (`moveStorageClass_leaves_shared`).
-/

import SpirvLink.Proofs.Line.StorageClass
import SpirvLink.Proofs.Module
import SpirvLink.Proofs.Text.Occurrences

namespace SpirvLink

open Text

namespace Line

variable {old new rest : Text} {l : Line}

/-- The line names a storage class, behind a space or between underscores. -/
def NamesClass (old : Text) (l : Line) : Prop :=
  storageWord old <:+: l.text ∨ storageInName old <:+: l.text

/-- What stands behind the class makes it the class again when the new one takes its place. -/
def CompletesClass (old new : Text) (l : Line) : Prop :=
  ∃ rest, old = new ++ rest ∧ storageWord (old ++ rest) <:+: l.text

/-- The class stands twice in a name, with one underscore between. -/
def SharesClass (old : Text) (l : Line) : Prop :=
  '_' :: (old ++ storageInName old) <:+: l.text

theorem not_completesClass (h : ¬ new <+: old) (l : Line) : ¬ l.CompletesClass old new := by
  rintro ⟨rest, rfl, -⟩
  exact h (List.prefix_append new rest)

instance (old : Text) (l : Line) : Decidable (l.SharesClass old) :=
  inferInstanceAs (Decidable (_ <:+: _))

theorem storageWord_ne_nil (w : Text) : storageWord w ≠ [] :=
  List.cons_ne_nil _ _

theorem space_not_mem (h : IsWord old) : ' ' ∉ old := fun hm => by
  have := h.2 _ hm
  rw [isBlank_space] at this
  cases this

theorem text_moved_word (ho : IsWord old) (hn : IsWord new) (bare : '_' ∉ old) (apart : ¬ old <:+: new) (l : Line) :
    storageWord old <:+: (l.moveStorageClass old new).text ↔ l.CompletesClass old new := by
  have spaces : ∀ {w : Text}, IsWord w → ' ' ∉ storageInName w := fun hw => by
    simpa [storageInName] using space_not_mem hw
  -- The second reading moves no class behind a space.
  have second := (Storage.replaced_inName old new (replaceAll (storageWord old) (storageWord new) l.text)).infix_iff
    (c := ' ') (u := old) rfl rfl (by simpa using bare) (spaces ho) (spaces hn)
  rw [text_moveStorageClass, Storage.inText]
  refine second.trans ?_
  exact infix_replaceAll_word (space_not_mem ho) (space_not_mem hn) apart l.text

example : (Line.mk "OpVariable StorageBufferBuffer".toList).moveStorageClass "StorageBuffer".toList "Storage".toList =
    ⟨"OpVariable StorageBuffer".toList⟩ := by
  decide +kernel

theorem text_moved_name (ho : IsWord old) (bare : '_' ∉ old) (bare' : '_' ∉ new) (apart : ¬ old <:+: new)
    (l : Line) : storageInName old <:+: (l.moveStorageClass old new).text ↔ l.SharesClass old := by
  have differ : old ≠ new := fun he => apart (he ▸ List.infix_refl _)
  have unspaced : ' ' ∉ '_' :: (old ++ storageInName old) := by
    simpa [storageInName] using space_not_mem ho
  -- The first reading moves no class between underscores.
  have replaced : Replaced (storageWord old) (storageWord new) l.text (replaceAll (storageWord old) (storageWord new) l.text) :=
    replaced_replaceAll (storageWord_ne_nil old) l.text
  have first := replaced.infix_iff
    (c := '_') (u := old ++ storageInName old) rfl rfl unspaced (by simpa [storageWord] using bare) (by simpa [storageWord] using bare')
  rw [SharesClass, ← first]
  exact infix_replaceAll_between bare bare' differ _

theorem countStorageClass_eq_zero_iff (old new : Text) (l : Line) :
    l.countStorageClass old new = 0 ↔ ¬ l.NamesClass old := by
  have word := countLiteral_eq_zero_iff (storageWord_ne_nil old) l.text
  rw [countStorageClass, Nat.add_eq_zero_iff, NamesClass, not_or, countLiteral, word]
  refine and_congr_right fun none => ?_
  rw [replaceLiteral, replaceAll_of_not_infix (storageWord_ne_nil old) none]
  exact countLiteral_eq_zero_iff (Storage.storageInName_ne_nil old) l.text

theorem moveStorageClass_of_not_names (h : ¬ l.NamesClass old) : l.moveStorageClass old new = l := by
  obtain ⟨word, name⟩ := not_or.mp h
  refine congrArg Line.mk ((text_moveStorageClass old new l).trans ?_)
  rw [Storage.inText, replaceAll_of_not_infix (storageWord_ne_nil old) word, Storage.inName,
    replaceAll_of_not_infix (Storage.storageInName_ne_nil old) name]

end Line

namespace Module

open Line

variable {old new : Text}

/-- Moving a storage class again counts nothing and changes nothing exactly if no line names it. -/
theorem moves_nothing_iff (old new : Text) (m : Module) :
    m.countStorageClass old new = 0 ∧ m.moveStorageClass old new = m ↔ ∀ l ∈ m.lines, ¬ l.NamesClass old := by
  rw [countStorageClass, total_eq_zero_iff]
  simp only [countStorageClass_eq_zero_iff]
  refine and_iff_left_of_imp fun none => ?_
  have lines : ∀ b ∈ m.blocks, ∀ l ∈ b.lines, l.moveStorageClass old new = l := fun b hb l hl =>
    moveStorageClass_of_not_names (none l (List.mem_flatMap.mpr ⟨b, hb, hl⟩))
  have blocks : ∀ b ∈ m.blocks, b.mapLines (Line.moveStorageClass old new) = b := fun b hb =>
    congrArg (Block.mk b.kind) ((List.map_congr_left (lines b hb)).trans (List.map_id _))
  exact congrArg Module.mk ((List.map_congr_left blocks).trans (List.map_id _))

/-- What is left of a class that is moved, line by line, and when moving it again does nothing. -/
theorem moveStorageClass_leaves_iff (ho : IsWord old) (hn : IsWord new) (bare : '_' ∉ old) (bare' : '_' ∉ new)
    (apart : ¬ old <:+: new) (m : Module) :
    (∀ l ∈ m.lines, (storageWord old <:+: (l.moveStorageClass old new).text ↔ l.CompletesClass old new) ∧
      (storageInName old <:+: (l.moveStorageClass old new).text ↔ l.SharesClass old)) ∧
    ((m.moveStorageClass old new).countStorageClass old new = 0 ∧
        (m.moveStorageClass old new).moveStorageClass old new = m.moveStorageClass old new ↔
      ∀ l ∈ m.lines, ¬ l.CompletesClass old new ∧ ¬ l.SharesClass old) := by
  have word := text_moved_word ho hn bare apart
  have name := text_moved_name ho bare bare' apart
  refine ⟨fun l _ => ⟨word l, name l⟩, ?_⟩
  rw [moves_nothing_iff, moveStorageClass, lines_mapLines, List.forall_mem_map]
  refine forall₂_congr fun l _ => ?_
  rw [NamesClass, not_or, word, name]

/-- A module of these definitions alone. -/
def ofDefinitions (lines : List Text) : Module :=
  ⟨[⟨.header, []⟩, ⟨.decorations, []⟩, ⟨.definitions, lines.map Line.mk⟩]⟩

/-- A pointer to a pointer, where each class has underscores of its own. -/
def nestedPointer : Module :=
  ofDefinitions ["%_ptr_Function__ptr_Function_uint = OpTypePointer Function %_ptr_Function_uint".toList]

/-- A pointer to a type whose name starts with the class. -/
def sharingPointer : Module :=
  ofDefinitions ["%_ptr_Function_Function_node = OpTypePointer Function %Function_node".toList]

theorem moveStorageClass_leaves_nothing :
    nestedPointer.moveStorageClass "Function".toList "Uniform".toList =
        ofDefinitions ["%_ptr_Uniform__ptr_Uniform_uint = OpTypePointer Uniform %_ptr_Uniform_uint".toList] ∧
      ((nestedPointer.moveStorageClass "Function".toList "Uniform".toList).countStorageClass "Function".toList
          "Uniform".toList = 0 ∧
        (nestedPointer.moveStorageClass "Function".toList "Uniform".toList).moveStorageClass "Function".toList
            "Uniform".toList =
          nestedPointer.moveStorageClass "Function".toList "Uniform".toList) := by
  have none : ∀ l ∈ nestedPointer.lines, ¬ l.CompletesClass "Function".toList "Uniform".toList ∧
      ¬ l.SharesClass "Function".toList := by
    intro l hl
    obtain rfl := List.mem_singleton.mp hl
    exact ⟨not_completesClass (by decide) _, by decide +kernel⟩
  exact ⟨by decide +kernel, (moveStorageClass_leaves_iff (by decide) (by decide) (by decide) (by decide) (by decide +kernel)
    nestedPointer).2.mpr none⟩

/-- Where two classes share an underscore, the second one is left, and is moved by another pass. -/
theorem moveStorageClass_leaves_shared :
    sharingPointer.moveStorageClass "Function".toList "Uniform".toList =
        ofDefinitions ["%_ptr_Uniform_Function_node = OpTypePointer Uniform %Function_node".toList] ∧
      storageInName "Function".toList <:+: "%_ptr_Uniform_Function_node = OpTypePointer Uniform %Function_node".toList ∧
      (sharingPointer.moveStorageClass "Function".toList "Uniform".toList).countStorageClass "Function".toList
        "Uniform".toList = 1 := by
  decide +kernel

end Module

end SpirvLink
