/-
  SpirvLink.Proofs.Inlining.FreshNames — which copies do not hang on the order of their names.

  Where a name that a copy changes is another one with the copy's number behind it, that other
  one is changed a second time if this one comes after it, so the order shows on a line that
  holds it (`apart_of_same`). Names that are apart give one renaming of all names at once in
  any order (`Apart.applyAll`), and so the body that inlining copies (`freshNames_any_order`).
-/

import Mathlib.Data.List.Dedup
import SpirvLink.Proofs.Inlining.Expansion

namespace SpirvLink

namespace Inlining

variable {copy : Nat} {owned order : List Text} {id : Text}

theorem append_copySuffix_ne (id : Text) (copy : Nat) : id ++ copySuffix copy ≠ id := by
  simp [copySuffix]

/-! ## Names that are apart -/

/-- In any order, the names are changed as if all at once. -/
theorem Apart.applyAll (apart : Apart copy owned) (hc : 1 < copy) (perm : order.Perm owned.dedup) (lines : List Line) :
    Rename.applyAll (freshRenames copy order) lines = lines.map (Line.renameIds (nameInCopy copy owned)) := by
  have mem : ∀ id, id ∈ order ↔ id ∈ owned := fun id => perm.mem_iff.trans List.mem_dedup
  rw [applyAll_freshRenames]
  refine List.map_congr_left fun l _ => Line.renameIds_congr fun id hid => ?_
  exact apart.composed_eq hc mem (Text.isIdent_of_mem hid)

/-! ## Names that meet -/

/-- A name and what it becomes can come next to each other, behind all other names. -/
theorem exists_perm_of_meets (hid : id ∈ owned) (hmeets : id ++ copySuffix copy ∈ owned) :
    ∃ rest, id ∉ rest ∧ (id :: (id ++ copySuffix copy) :: rest).Perm owned.dedup := by
  have first : owned.dedup.Perm (id :: owned.dedup.erase id) := List.perm_cons_erase (List.mem_dedup.mpr hid)
  have second := List.perm_cons_erase
    ((List.mem_erase_of_ne (append_copySuffix_ne id copy)).mpr (List.mem_dedup.mpr hmeets))
  have absent : id ∉ owned.dedup.erase id := (List.nodup_dedup owned).not_mem_erase
  exact ⟨_, fun hm => absent (List.mem_of_mem_erase hm), (first.trans (second.cons id)).symm⟩

/-- The name is changed twice where the other comes after it, and once where it comes before. -/
theorem composed_of_meets (copy : Nat) {rest : List Text} (absent : id ∉ rest) :
    Rename.composed (freshRenames copy ((id ++ copySuffix copy) :: id :: rest)) id =
        id ++ copySuffix copy ++ copySuffix copy ∧
      Rename.composed (freshRenames copy (id :: (id ++ copySuffix copy) :: rest)) id = id ++ copySuffix copy := by
  have start : Rename.composed (freshRenames copy rest) id = id :=
    Rename.composed_of_not_mem (by rwa [freshRenames_olds])
  constructor
  · rw [composed_freshRenames_cons, composed_freshRenames_cons, start, if_pos rfl, if_pos rfl]
  · rw [composed_freshRenames_cons, composed_freshRenames_cons, start, if_neg (append_copySuffix_ne id copy).symm,
      if_pos rfl]

/-- Names that give the same lines in every order are apart. -/
theorem apart_of_same (same : ∀ order order', order.Perm owned.dedup → order'.Perm owned.dedup → ∀ lines,
    Rename.applyAll (freshRenames copy order) lines = Rename.applyAll (freshRenames copy order') lines) :
    Apart copy owned := by
  intro id hid hident hmeets
  obtain ⟨rest, absent, perm⟩ := exists_perm_of_meets hid hmeets
  obtain ⟨twice, once⟩ := composed_of_meets copy absent
  -- A line that is this name alone shows what becomes of it.
  have shown : ∀ order, Rename.applyAll (freshRenames copy order) [⟨id⟩] =
      [⟨Rename.composed (freshRenames copy order) id⟩] := fun order => by
    rw [applyAll_freshRenames]
    exact congrArg (fun s => [Line.mk s]) (Text.renameIds_of_isIdent _ hident)
  have equal := same _ _ ((List.Perm.swap ..).trans perm) perm [⟨id⟩]
  rw [shown, shown, twice, once] at equal
  injection equal with equal
  exact append_copySuffix_ne _ _ (Line.mk.inj equal)

/-- The names that a second or later copy changes can come in any order if none is another one
    with the copy's number behind it, and only then does the order make no difference. The
    lines are those of one renaming of all names at once, and so is the body that inlining
    copies. -/
theorem freshNames_any_order (hc : 1 < copy) :
    (∀ owned, Apart copy owned → ∀ order, order.Perm owned.dedup → ∀ lines,
      Rename.applyAll (freshRenames copy order) lines = lines.map (Line.renameIds (nameInCopy copy owned))) ∧
    (∀ owned, (∀ order order', order.Perm owned.dedup → order'.Perm owned.dedup → ∀ lines,
      Rename.applyAll (freshRenames copy order) lines = Rename.applyAll (freshRenames copy order') lines) ↔
        Apart copy owned) ∧
    ∀ [KeyOrder] p f call e, (copyBody p f call copy).result = .ok e → Apart copy f.owned →
      ∀ order, order.Perm f.owned.dedup → e.lines = Rename.applyAll (freshRenames copy order) f.bodyLines := by
  refine ⟨fun owned apart order perm lines => apart.applyAll hc perm lines, fun owned => ⟨apart_of_same, ?_⟩, ?_⟩
  · intro apart order order' perm perm' lines
    rw [apart.applyAll hc perm, apart.applyAll hc perm']
  · intro _ p f call e copied apart order perm
    obtain ⟨-, -, rfl⟩ := Function.copyBody_eq_ok.mp copied
    exact (Function.copyLines_of_apart fun _ => apart).trans (apart.applyAll hc perm f.bodyLines).symm

/-- Each name that it owns starts with its parameter's, and one looks like a name in a third copy. -/
def scalingFunction : Function :=
  ⟨["%scale = OpFunction %uint None %fn", "%p = OpFunctionParameter %uint", "%l = OpLabel",
    "%p2 = OpIAdd %uint %p %p", "%p_inl3 = OpIMul %uint %p2 %p", "OpReturnValue %p_inl3",
    "OpFunctionEnd"].map fun s => ⟨s.toList⟩⟩

def scalingCall : Call :=
  ⟨"%r".toList, "%uint".toList, "%scale".toList, ["%in".toList]⟩

attribute [local instance] KeyOrder.listed

/-- The longest name first; and two names that meet in a second copy. -/
theorem freshNames_any_order_scaling :
    Apart 2 scalingFunction.owned ∧ (["%p_inl3", "%p2", "%p"].map String.toList).Perm scalingFunction.owned.dedup ∧
    Rename.applyAll (freshRenames 2 (["%p_inl3", "%p2", "%p"].map String.toList)) scalingFunction.bodyLines =
      ["%p2_inl2 = OpIAdd %uint %p_inl2 %p_inl2", "%p_inl3_inl2 = OpIMul %uint %p2_inl2 %p_inl2"].map
        (fun s => ⟨s.toList⟩) ∧
    (∃ e, (copyBody [] scalingFunction scalingCall 2).result = .ok e ∧
      e.lines = Rename.applyAll (freshRenames 2 (["%p_inl3", "%p2", "%p"].map String.toList)) scalingFunction.bodyLines) ∧
    ¬ ∀ order order', order.Perm (["%a", "%a_inl2"].map String.toList).dedup →
      order'.Perm (["%a", "%a_inl2"].map String.toList).dedup → ∀ lines,
        Rename.applyAll (freshRenames 2 order) lines = Rename.applyAll (freshRenames 2 order') lines := by
  have apart : Apart 2 scalingFunction.owned := by decide +kernel
  have perm : (["%p_inl3", "%p2", "%p"].map String.toList).Perm scalingFunction.owned.dedup := by decide +kernel
  obtain ⟨once, same, copied⟩ := freshNames_any_order (show 1 < 2 by decide)
  refine ⟨apart, perm, (once _ apart _ perm _).trans (by decide +kernel), ?_, (same _).not.mpr (by decide +kernel)⟩
  exact ⟨_, rfl, copied [] scalingFunction scalingCall _ rfl apart _ perm⟩

end Inlining

end SpirvLink
