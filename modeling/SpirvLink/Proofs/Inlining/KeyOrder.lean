/-
  SpirvLink.Proofs.Inlining.KeyOrder — a copy's names, changed one after the other.

  A second or later copy of a body puts its number behind each name that the function owns,
  name by name over all lines, in the order of the keys of a hash map. Whatever the order, a
  line has its identifiers renamed at once in the end (`copyLines_eq_map`), and an identifier
  then has the number behind it as often as it was changed (`lineName_induction`).

  If no name is another one with the number behind it (`Inlining.Apart`), no name is changed
  twice: the lines get the names that the map has for them (`Function.lineName_of_apart`), as
  in a tidy module (`Tidy.copyLines`). Two orders that are the same wherever names are not
  apart (`KeyOrder.Agree`) give the same copy, and the same lines for main
  (`expandLines_congr`).
-/

import SpirvLink.Inlining.Passes
import SpirvLink.Proofs.Inlining.Names
import SpirvLink.Proofs.Inlining.Renames

namespace SpirvLink

/-! ## Names in an order -/

namespace Inlining

variable {copy : Nat} {owned order : List Text} {id : Text}

/-- No identifier of these becomes another one of them when the copy's number is put behind it. -/
def Apart (copy : Nat) (owned : List Text) : Prop :=
  ∀ id ∈ owned, Text.IsIdent id → id ++ copySuffix copy ∉ owned

instance (copy : Nat) (owned : List Text) : Decidable (Apart copy owned) :=
  inferInstanceAs (Decidable (∀ id ∈ owned, _ → _))

theorem nameInCopy_later (hc : 1 < copy) (owned : List Text) (id : Text) :
    nameInCopy copy owned id = if id ∈ owned then id ++ copySuffix copy else id := by
  simp only [nameInCopy, hc, true_and]

theorem freshRenames_olds (copy : Nat) (order : List Text) : (freshRenames copy order).map Rename.old = order := by
  rw [freshRenames, List.map_map]
  exact List.map_id order

theorem composed_freshRenames_cons (copy : Nat) (next : Text) (order : List Text) (id : Text) :
    Rename.composed (freshRenames copy (next :: order)) id =
      if Rename.composed (freshRenames copy order) id = next then next ++ copySuffix copy
      else Rename.composed (freshRenames copy order) id :=
  rfl

/-- An identifier gets the number behind it, once or more, or it stays. -/
theorem composed_freshRenames_induction {P : Text → Prop} (step : ∀ id, P id → P (id ++ copySuffix copy)) (h : P id) :
    P (Rename.composed (freshRenames copy order) id) := by
  induction order with
  | nil => exact h
  | cons next order ih =>
    rw [composed_freshRenames_cons]
    split
    · next he => exact step next (he ▸ ih)
    · exact ih

theorem applyAll_freshRenames (copy : Nat) (order : List Text) (lines : List Line) :
    Rename.applyAll (freshRenames copy order) lines =
      lines.map (Line.renameIds (Rename.composed (freshRenames copy order))) := by
  refine Rename.applyAll_eq_map_of_olds (List.forall_mem_map.mpr fun id _ => ?_) lines
  exact fun hid => isIdent_append_copySuffix hid copy

/-! ## Names that are apart -/

/-- Names that do not end as names in copies do are apart. -/
theorem apart_of_unsuffixed (h : ∀ id ∈ owned, isCopyName id = false) (copy : Nat) : Apart copy owned := by
  intro id _ _ hm
  have plain := h _ hm
  rw [isCopyName_append_copySuffix] at plain
  cases plain

theorem Apart.of_mem_iff (apart : Apart copy owned) (mem : ∀ id, id ∈ order ↔ id ∈ owned) : Apart copy order :=
  fun id hid hident hm => apart id ((mem id).mp hid) hident ((mem _).mp hm)

theorem Apart.tail {next : Text} (apart : Apart copy (next :: order)) : Apart copy order :=
  fun id hid hident hm => apart id (List.mem_cons_of_mem _ hid) hident (List.mem_cons_of_mem _ hm)

/-- Where the names are apart, each is changed once. -/
theorem Apart.composed (apart : Apart copy order) (hid : Text.IsIdent id) :
    Rename.composed (freshRenames copy order) id = if id ∈ order then id ++ copySuffix copy else id := by
  induction order with
  | nil => rfl
  | cons next order ih =>
    rw [composed_freshRenames_cons, ih apart.tail]
    by_cases hm : id ∈ order
    · -- The new name is not the next one to be changed.
      have other : id ++ copySuffix copy ≠ next := fun he =>
        apart id (List.mem_cons_of_mem _ hm) hid (he ▸ List.mem_cons_self ..)
      rw [if_pos hm, if_neg other, if_pos (List.mem_cons_of_mem _ hm)]
    · rw [if_neg hm]
      by_cases he : id = next
      · rw [if_pos he, if_pos (he ▸ List.mem_cons_self ..), he]
      · rw [if_neg he, if_neg (List.not_mem_cons_of_ne_of_not_mem he hm)]

/-- In any order, each name becomes what the map has for it. -/
theorem Apart.composed_eq (apart : Apart copy owned) (hc : 1 < copy) (mem : ∀ id, id ∈ order ↔ id ∈ owned)
    (hid : Text.IsIdent id) : Rename.composed (freshRenames copy order) id = nameInCopy copy owned id := by
  rw [(apart.of_mem_iff mem).composed hid, nameInCopy_later hc]
  exact if_congr (mem id) rfl rfl

end Inlining

/-! ## The lines of a copy -/

namespace Function

section

variable [KeyOrder] {f : Function} {copy : Nat} {id : Text}

/-- The lines of a copy, with the names changed in the order of the map. -/
def copyLines (f : Function) (copy : Nat) : List Line :=
  Rename.applyAll (Inlining.freshRenames copy (Inlining.changedNames f copy f.owned)) f.bodyLines

/-- What becomes of an identifier on the lines of a copy. -/
def lineName (f : Function) (copy : Nat) : Text → Text :=
  Rename.composed (Inlining.freshRenames copy (Inlining.changedNames f copy f.owned))

theorem copyLines_eq_map (f : Function) (copy : Nat) :
    f.copyLines copy = f.bodyLines.map (Line.renameIds (f.lineName copy)) :=
  Inlining.applyAll_freshRenames ..

theorem mem_copyLines {l : Line} : l ∈ f.copyLines copy ↔ ∃ k ∈ f.bodyLines, k.renameIds (f.lineName copy) = l := by
  rw [copyLines_eq_map, List.mem_map]

theorem lineName_induction {P : Text → Prop} (step : ∀ id, P id → P (id ++ Inlining.copySuffix copy)) (h : P id) :
    P (f.lineName copy id) :=
  Inlining.composed_freshRenames_induction step h

theorem isIdent_lineName (hid : Text.IsIdent id) : Text.IsIdent (f.lineName copy id) :=
  lineName_induction (fun _ h => Inlining.isIdent_append_copySuffix h copy) hid

/-- Names that are apart become what the map has for them. -/
theorem lineName_of_apart (apart : 1 < copy → Inlining.Apart copy f.owned) (hid : Text.IsIdent id) :
    f.lineName copy id = f.nameIn copy id := by
  unfold lineName nameIn Inlining.changedNames
  by_cases hc : 1 < copy
  · rw [if_pos hc]
    exact (apart hc).composed_eq hc (fun _ => KeyOrder.mem_keys) hid
  · rw [if_neg hc, Inlining.nameInCopy, if_neg fun h => hc h.1]
    rfl

theorem copyLines_of_apart (apart : 1 < copy → Inlining.Apart copy f.owned) :
    f.copyLines copy = f.bodyLines.map (Line.renameIds (f.nameIn copy)) := by
  rw [copyLines_eq_map]
  exact List.map_congr_left fun l _ => Line.renameIds_congr fun id hid =>
    lineName_of_apart apart (Text.isIdent_of_mem hid)

end

end Function

/-! ## Two orders -/

namespace KeyOrder

variable {order₁ order₂ : KeyOrder} {f : Function}

/-- The orders are the same in each copy of the function, or its names are apart there. -/
def Agree (order₁ order₂ : KeyOrder) (f : Function) : Prop :=
  ∀ copy, 1 < copy → order₁.keys f copy f.owned = order₂.keys f copy f.owned ∨ Inlining.Apart copy f.owned

theorem Agree.of_unsuffixed (h : ∀ id ∈ f.owned, Inlining.isCopyName id = false) : Agree order₁ order₂ f :=
  fun copy _ => Or.inr (Inlining.apart_of_unsuffixed h copy)

theorem Agree.refl (order : KeyOrder) (f : Function) : Agree order order f :=
  fun _ _ => Or.inl rfl

theorem Agree.copyLines (h : Agree order₁ order₂ f) (copy : Nat) :
    @Function.copyLines order₁ f copy = @Function.copyLines order₂ f copy := by
  by_cases alike : 1 < copy ∧ order₁.keys f copy f.owned = order₂.keys f copy f.owned
  · unfold Function.copyLines Inlining.changedNames
    rw [alike.2]
  · have apart : 1 < copy → Inlining.Apart copy f.owned := fun hc =>
      (h copy hc).resolve_left fun same => alike ⟨hc, same⟩
    exact (@Function.copyLines_of_apart order₁ f copy apart).trans (@Function.copyLines_of_apart order₂ f copy apart).symm

theorem Agree.copyBody (h : Agree order₁ order₂ f) (p : Text) (call : Call) (copy : Nat) :
    @Inlining.copyBody order₁ p f call copy = @Inlining.copyBody order₂ p f call copy := by
  unfold Inlining.copyBody
  refine Logged.bind_congr fun name _ => Logged.bind_congr fun ps hps => ?_
  obtain ⟨-, rfl⟩ := Function.parameters_eq_ok.mp hps
  split
  · exact Logged.bind_congr fun _ h => (by cases h)
  · refine Logged.bind_congr fun body hbody => ?_
    obtain ⟨-, -, rfl⟩ := Function.body_eq_ok.mp hbody
    refine Logged.bind_congr fun _ _ => Logged.bind_congr fun returned _ => Logged.bind_congr fun _ _ => ?_
    exact congrArg (fun lines => pure (Expansion.mk lines _)) (h.copyLines copy)

end KeyOrder

/-- A module that resolves calls alike expands main alike, in orders that agree in each function. -/
theorem expandLines_congr {order₁ order₂ : KeyOrder} {p : Text} {m m' : Module}
    (same : ∀ callee, Inlining.resolve m' callee = Inlining.resolve m callee)
    (agree : ∀ f ∈ m.plainFunctions, KeyOrder.Agree order₁ order₂ f) : ∀ (copied : List Text) (ls : List Line),
    @Inliner.expandLines order₁ p m' copied ls = @Inliner.expandLines order₂ p m copied ls
  | _, [] => rfl
  | copied, l :: ls => by
    unfold Inliner.expandLines
    split
    · refine Logged.bind_congr fun call _ => ?_
      rw [same]
      refine Logged.bind_congr fun f hf => Logged.bind_congr fun _ _ => ?_
      rw [(agree f (Module.plain_of_resolve hf).1).copyBody, expandLines_congr same agree]
    · rw [expandLines_congr same agree]

/-! ## Tidy modules -/

namespace Module.Tidy

variable {m : Module} {f : Function}

/-- What the functions of a tidy module own is apart in every copy. -/
theorem apart (t : m.Tidy) (hf : f ∈ m.plainFunctions) (copy : Nat) : Inlining.Apart copy f.owned :=
  Inlining.apart_of_unsuffixed (fun _ => t.owned_unsuffixed hf) copy

theorem copyLines [KeyOrder] (t : m.Tidy) (hf : f ∈ m.plainFunctions) (copy : Nat) :
    f.copyLines copy = f.bodyLines.map (Line.renameIds (f.nameIn copy)) :=
  Function.copyLines_of_apart fun _ => t.apart hf copy

theorem mem_copyLines [KeyOrder] (t : m.Tidy) (hf : f ∈ m.plainFunctions) {copy : Nat} {l : Line} :
    l ∈ f.copyLines copy ↔ ∃ k ∈ f.bodyLines, k.renameIds (f.nameIn copy) = l := by
  rw [t.copyLines hf, List.mem_map]

end Module.Tidy

end SpirvLink
