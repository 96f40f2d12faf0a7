/-
  SpirvLink.Proofs.Line.EqualsFree — lines on which no identifier holds an equals sign.

  The first equals sign of such a line is no part of an identifier, so the identifiers are
  those on its two sides. A renaming to names renames what the line defines and uses
  (`EqualsFree.defined?_renameIds`, `EqualsFree.rhsIds_renameIds`) and keeps the role of the
  line (`EqualsFree.sameRole`).
-/

import SpirvLink.Proofs.Line.Roles

namespace SpirvLink

/-- No identifier on the line holds an equals sign. -/
def Line.EqualsFree (l : Line) : Prop :=
  Text.EqualsFree l.text

theorem Line.isIdent_of_mem_rhsIds {l : Line} {id : Text} (h : id ∈ l.rhsIds) : Text.IsIdent id := by
  unfold Line.rhsIds at h
  cases hr : l.rhs? with
  | none =>
    rw [hr] at h
    cases h
  | some rhs =>
    rw [hr] at h
    exact Text.isIdent_of_mem h

theorem Line.EqualsFree.trim {l : Line} (h : l.EqualsFree) : l.trim.EqualsFree := by
  intro id hid
  refine h id ?_
  rw [← Text.identifiers_trim]
  exact hid

namespace Line.EqualsFree

variable {l : Line} {f : Text → Text} {id before after : Text}

theorem ids_eq (h : l.EqualsFree) (hs : l.halves? = some (before, after)) :
    l.ids = Text.identifiers before ++ Text.identifiers after := by
  obtain ⟨htext, -⟩ := Text.cutAt_eq_some.mp (Line.halves?_eq_some.mp hs).1
  unfold Line.EqualsFree at h
  rw [htext] at h
  rw [Line.ids, htext, Text.identifiers_cut h]

theorem rhsIds_subset (h : l.EqualsFree) : l.rhsIds ⊆ l.ids := by
  intro id hid
  rw [Line.rhsIds, Line.rhs?] at hid
  cases hs : l.halves? with
  | none =>
    rw [hs] at hid
    cases hid
  | some halves =>
    rw [hs] at hid
    rw [h.ids_eq hs]
    refine List.mem_append_right _ ?_
    rw [← Text.identifiers_trim]
    exact hid

theorem rhsIds (h : l.EqualsFree) : ∀ id ∈ l.rhsIds, '=' ∉ id :=
  fun id hid => h id (h.rhsIds_subset hid)

/-- The words before the equals sign are the one word that is defined. -/
theorem words_before (hs : l.halves? = some (before, after)) (hd : l.defined? = some id) : Text.words before = [id] := by
  obtain ⟨u, hu, -⟩ := Text.canDefine_trim_iff.mp (Line.halves?_eq_some.mp hs).2
  rw [Line.defined?, hs] at hd
  obtain rfl : Text.trim before = id := Option.some.inj hd
  rw [Text.trim_eq_of_words hu, hu]

theorem defined?_renameIds (h : l.EqualsFree) (hf : Text.Keeps f) :
    (l.renameIds f).defined? = l.defined?.map (Text.renameIds f) := by
  rw [Line.defined?, Line.halves?_renameIds hf h, Line.defined?]
  cases hs : l.halves? with
  | none => rfl
  | some halves =>
    obtain ⟨u, hu, -⟩ := Text.canDefine_trim_iff.mp (Line.halves?_eq_some.mp hs).2
    have renamed : Text.words (Text.renameIds f halves.1) = [Text.renameIds f u] := by rw [hf.words, hu, List.map_singleton]
    simp only [Option.map_some, Text.trim_eq_of_words hu, Text.trim_eq_of_words renamed]

theorem rhsIds_renameIds (h : l.EqualsFree) (hf : Text.Keeps f) (ident : ∀ id ∈ l.ids, Text.IsIdent (f id)) :
    (l.renameIds f).rhsIds = l.rhsIds.map f := by
  have subset := h.rhsIds_subset
  rw [Line.rhsIds, Line.rhs?] at subset
  rw [Line.rhsIds, Line.rhs?, Line.halves?_renameIds hf h, Line.rhsIds, Line.rhs?]
  cases hs : l.halves? with
  | none => rfl
  | some halves =>
    rw [hs] at subset
    simp only [Option.map_some, Option.getD_some, Text.identifiers_trim] at subset ⊢
    exact Text.identifiers_renameIds fun id hid => ident id (subset hid)

theorem renameIds (h : l.EqualsFree) (hf : Text.Keeps f) : (l.renameIds f).EqualsFree := by
  refine Text.equalsFree_renameIds fun id hid => ?_
  rcases hf id (Text.isIdent_of_mem hid) with he | hname
  · rw [he]
    exact h id hid
  · exact hname.noEquals

theorem renameOperands (h : l.EqualsFree) (hf : Text.Keeps f) : (l.renameOperands f).EqualsFree := by
  cases hs : l.halves? with
  | none =>
    rw [Line.renameOperands_of_none hs]
    exact h.renameIds hf
  | some halves =>
    obtain ⟨before, after⟩ := halves
    obtain ⟨htext, -⟩ := Text.cutAt_eq_some.mp (Line.halves?_eq_some.mp hs).1
    unfold Line.EqualsFree at h ⊢
    rw [htext, ← Text.equalsFreeFrom_false, Text.equalsFreeFrom_cut] at h
    rw [Line.text_renameOperands hs, ← Text.equalsFreeFrom_false, Text.equalsFreeFrom_cut]
    have rhs : (Line.mk after).EqualsFree := h.2
    exact ⟨h.1, rhs.renameIds hf⟩

theorem sameRole (h : l.EqualsFree) (hf : ∀ id, Text.IsIdent id → '=' ∉ id → Text.IsName (f id)) :
    Line.SameRole l (l.renameIds f) := by
  have keeps := Text.keeps_guarded hf
  have same : l.renameIds (Text.guarded f) = l.renameIds f := congrArg Line.mk (Text.renameIds_guarded h)
  rw [← same]
  exact (Line.renamed_renameIds keeps h).sameRole keeps

end Line.EqualsFree

end SpirvLink
