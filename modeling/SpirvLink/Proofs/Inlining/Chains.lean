/-
  SpirvLink.Proofs.Inlining.Chains — renames made newest first follow whole chains.

  A rename can lead to a name that another rename takes away, as where the value that a call
  gives is a parameter of the callee. The older renames are made after it, so what it puts in
  is taken further by them: a name ends where the older renames take its new name
  (`composed_eq_chainEnd`). If no rename leads to a name that it or a newer one takes away,
  every chain goes back to older renames only and ends at a name that stays
  (`endsAt_iff`). Then the renames are one renaming of all names at once, each to the end
  of its chain, and no name that was to go is left (`applyAll_follows_chains`).
-/

import Mathlib.Data.List.Induction
import Mathlib.Logic.Function.Basic
import SpirvLink.Proofs.Inlining.Renames

namespace SpirvLink.Rename

variable {r : Rename} {rs before after : List Rename} {id last : Text}

/-- Where the chain of each name ends, the renames being listed oldest first: a name that one
    takes away ends where the older ones take its new name. -/
def chainEnd (rs : List Rename) : Text → Text :=
  rs.foldl (fun ends r => Function.update ends r.old (ends r.new)) fun id => id

/-- A chain goes on with the new name as long as a rename takes the name away. -/
inductive EndsAt (rs : List Rename) : Text → Text → Prop
  | stays {id : Text} : id ∉ rs.map Rename.old → EndsAt rs id id
  | goes {r : Rename} {last : Text} : r ∈ rs → EndsAt rs r.new last → EndsAt rs r.old last

/-! ## The newest rename -/

theorem chainEnd_concat (rs : List Rename) (r : Rename) (id : Text) :
    chainEnd (rs ++ [r]) id = if id = r.old then chainEnd rs r.new else chainEnd rs id := by
  rw [chainEnd, List.foldl_append, List.foldl_cons, List.foldl_nil, Function.update_apply]
  rfl

/-- The renames one by one, the newest first, take each name to the end of its chain. -/
theorem composed_eq_chainEnd (rs : List Rename) : composed rs = chainEnd rs := by
  funext id
  induction rs using List.reverseRecOn generalizing id with
  | nil => rfl
  | append_singleton rs r ih =>
    rw [composed_append, ih, chainEnd_concat, composed, List.foldr_cons, List.foldr_nil, Text.only]
    split <;> rfl

/-- Newer renames do not change where the chain of a name that they leave ends. -/
theorem chainEnd_append (h : id ∉ after.map Rename.old) : chainEnd (before ++ after) id = chainEnd before id := by
  rw [← composed_eq_chainEnd, composed_append, composed_of_not_mem h, composed_eq_chainEnd]

/-- The chain of a name that is taken away goes on in the older renames. -/
theorem chainEnd_old (h : Chained (before ++ r :: after)) :
    chainEnd (before ++ r :: after) r.old = chainEnd before r.new := by
  have newer : r.old ∉ after.map Rename.old := (chained_append.mp h).2.1.old_not_mem_olds
  rw [List.append_cons, chainEnd_append newer, chainEnd_concat, if_pos rfl]

/-! ## The whole chain -/

/-- An older rename takes the chain one step further if it takes the last name away. -/
theorem EndsAt.older (h : EndsAt rs id last) (chained : Chained (r :: rs)) :
    EndsAt (r :: rs) id (Text.only r.old r.new last) := by
  induction h with
  | @stays id hid =>
    unfold Text.only
    split
    · next he => exact he ▸ .goes (List.mem_cons_self ..) (.stays chained.new_not_mem_olds)
    · next hne => exact .stays (by simpa [hne] using hid)
  | goes hs _ ih => exact .goes (List.mem_cons_of_mem r hs) ih

theorem endsAt_composed (chained : Chained rs) (id : Text) : EndsAt rs id (composed rs id) := by
  induction rs with
  | nil => exact .stays List.not_mem_nil
  | cons r rs ih => exact (ih chained.tail).older chained

/-- Each chain ends, and at one name only. -/
theorem endsAt_iff (chained : Chained rs) : EndsAt rs id last ↔ chainEnd rs id = last := by
  rw [← composed_eq_chainEnd]
  constructor
  · intro h
    induction h with
    | stays hid => exact composed_of_not_mem hid
    | goes hr _ ih => exact (composed_old chained hr).trans ih
  · rintro rfl
    exact endsAt_composed chained id

/-- Where no rename leads to a name that it or a newer one takes away, and none takes away a
    name that another does, the renames made newest first are one renaming at once of every
    name to the end of its chain, and the names taken away are gone. -/
theorem applyAll_follows_chains (chained : Chained rs) (ident : ∀ r ∈ rs, Text.IsIdent r.new) :
    (∀ id last, EndsAt rs id last ↔ chainEnd rs id = last) ∧
    (∀ before r after, rs = before ++ r :: after → chainEnd rs r.old = chainEnd before r.new) ∧
    ∀ lines, applyAll rs lines = lines.map (Line.renameIds (chainEnd rs)) ∧
      ∀ l ∈ applyAll rs lines, ∀ r ∈ rs, r.old ∉ l.ids := by
  refine ⟨fun id last => endsAt_iff chained, ?_, fun lines => ?_⟩
  · rintro before r after rfl
    exact chainEnd_old chained
  · have once : applyAll rs lines = lines.map (Line.renameIds (chainEnd rs)) := by
      rw [applyAll_eq_map ident, composed_eq_chainEnd]
    refine ⟨once, fun l hl r hr hm => ?_⟩
    rw [once] at hl
    obtain ⟨k, -, rfl⟩ := List.mem_map.mp hl
    rw [← composed_eq_chainEnd, Line.ids_renameIds fun _ hid => isIdent_composed ident (Text.isIdent_of_mem hid)] at hm
    obtain ⟨id, -, he⟩ := List.mem_map.mp hm
    exact composed_not_mem_olds chained id (he ▸ List.mem_map_of_mem hr)

/-- The renames of a call that passes `%in` for `%x` to a function that returns `%x`, and of
    one that passes the first call's result on. -/
def passedOn : List Rename :=
  [("%x", "%in"), ("%r", "%x"), ("%x_inl2", "%r"), ("%s", "%x_inl2")].map fun r => ⟨r.1.toList, r.2.toList⟩

theorem applyAll_follows_chains_passedOn : Chained passedOn ∧ (∀ r ∈ passedOn, Text.IsIdent r.new) ∧
    EndsAt passedOn "%s".toList "%in".toList ∧
    applyAll passedOn [⟨"OpStore %r %s %s2 %x".toList⟩] = [⟨"OpStore %in %in %s2 %in".toList⟩] ∧
    ∀ l ∈ applyAll passedOn [⟨"OpStore %r %s %s2 %x".toList⟩], ∀ r ∈ passedOn, r.old ∉ l.ids := by
  have chained : Chained passedOn := ⟨by decide, by decide⟩
  have ident : ∀ r ∈ passedOn, Text.IsIdent r.new := by decide
  obtain ⟨ends, -, renames⟩ := applyAll_follows_chains chained ident
  obtain ⟨once, gone⟩ := renames [⟨"OpStore %r %s %s2 %x".toList⟩]
  exact ⟨chained, ident, (ends _ _).mpr (by decide), once.trans (by decide +kernel), gone⟩

end SpirvLink.Rename
