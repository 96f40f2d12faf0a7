/-
  SpirvLink.Proofs.Fusion.Expansion — what a type or constant is, all the way down.

  The expansion of an identifier is the right-hand side that defines it, with the expansion
  of each type or constant in the place of its identifier (`expansion_of_mem`). It is a
  tree: an operand stays one operand, so a structure of a structure is no structure with
  the same members. Among the identifiers with one expansion the first stands for all
  (`canonical`); two right-hand sides written with such identifiers are the same text if
  and only if what they define has one expansion (`key_eq_iff`).
-/

import SpirvLink.Proofs.Fusion
import SpirvLink.Proofs.Line.EqualsFree

namespace SpirvLink

namespace Fusion

/-- A right-hand side whose types and constants are right-hand sides in turn. -/
inductive Tree where
  | other (c : Char)
  | leaf (id : Text)
  | definition (parts : List Tree)

namespace Tree

mutual

def decEq : (a b : Tree) → Decidable (a = b)
  | .other c, .other d => decidable_of_iff (c = d) (by simp)
  | .leaf i, .leaf j => decidable_of_iff (i = j) (by simp)
  | .definition as, .definition bs =>
    match decEqs as bs with
    | isTrue h => isTrue (congrArg _ h)
    | isFalse h => isFalse fun he => h (Tree.definition.inj he)
  | .other _, .leaf _ | .other _, .definition _ | .leaf _, .other _ | .leaf _, .definition _
  | .definition _, .other _ | .definition _, .leaf _ => isFalse fun he => by cases he

def decEqs : (as bs : List Tree) → Decidable (as = bs)
  | [], [] => isTrue rfl
  | a :: as, b :: bs =>
    match decEq a b, decEqs as bs with
    | isTrue h, isTrue hs => isTrue (h ▸ hs ▸ rfl)
    | isFalse h, _ => isFalse fun he => h (List.cons.inj he).1
    | _, isFalse hs => isFalse fun he => hs (List.cons.inj he).2
  | [], _ :: _ | _ :: _, [] => isFalse fun he => by cases he

end

instance : DecidableEq Tree :=
  decEq

end Tree

/-- What stands in the place of a segment when each identifier has a tree. -/
def expandSegment (tree : Text → Tree) : Text.Segment → Tree
  | .ident id => tree id
  | .other c => .other c

/-- Identifiers and their right-hand sides, in the order of the lines. -/
abbrev Definitions := List (Text × Text)

namespace Definitions

def ids (ds : Definitions) : List Text :=
  ds.map Prod.fst

/-- The expansion of an identifier by definitions, the last one first. -/
def expandBy : Definitions → Text → Tree
  | [], id => .leaf id
  | (d, rhs) :: ds, id =>
    if id = d then .definition ((Text.segments rhs).map (expandSegment (expandBy ds))) else expandBy ds id

def expansion (ds : Definitions) (id : Text) : Tree :=
  expandBy ds.reverse id

/-- The first identifier that has the expansion of this one. -/
def canonical (ds : Definitions) (id : Text) : Text :=
  (ds.ids.find? fun d => ds.expansion d = ds.expansion id).getD id

/-- An identifier defined before this one has its expansion. -/
def isDuplicate (ds : Definitions) (id : Text) : Bool :=
  (ds.ids.takeWhile fun d => d ≠ id).any fun d => ds.expansion d = ds.expansion id

/-- The line defines a type or constant, and an earlier one has the same expansion. -/
def deletes (ds : Definitions) (l : Line) : Bool :=
  (definition? l).any fun d => ds.isDuplicate d.1

/-- The block without the lines that are deleted, and with the first identifier of each
    expansion in the place of the others. -/
def share (ds : Definitions) (b : Block) : Block :=
  { b with lines := (b.lines.filter fun l => !ds.deletes l).map (Line.renameOperands ds.canonical) }

/-- Each identifier is defined once, and before any right-hand side uses it. -/
structure Layered (ds : Definitions) : Prop where
  ident : ∀ d ∈ ds, Text.IsIdent d.1
  once : ds.ids.Nodup
  earlier : ∀ before d after, ds = before ++ d :: after →
    ∀ id ∈ Text.identifiers d.2, id ∈ ds.ids → id ∈ ids before

/-! ## Expansions -/

variable {ds before after : Definitions} {id rhs rhs' i j : Text}

theorem expandBy_of_not_mem : ∀ {ds : Definitions}, id ∉ ds.ids → expandBy ds id = .leaf id
  | [], _ => rfl
  | (d, rhs) :: ds, h => by
    rw [ids, List.map_cons, List.mem_cons, not_or] at h
    rw [expandBy, if_neg h.1]
    exact expandBy_of_not_mem h.2

theorem expandBy_append : ∀ {ds : Definitions} (before : Definitions), id ∉ ds.ids →
    expandBy (ds ++ before) id = expandBy before id
  | [], _, _ => rfl
  | (d, rhs) :: ds, before, h => by
    rw [ids, List.map_cons, List.mem_cons, not_or] at h
    rw [List.cons_append, expandBy, if_neg h.1]
    exact expandBy_append before h.2

theorem mem_ids_reverse : id ∈ ids ds.reverse ↔ id ∈ ds.ids := by
  rw [ids, List.map_reverse, List.mem_reverse, ids]

theorem mem_ids_append : id ∈ ids (before ++ after) ↔ id ∈ before.ids ∨ id ∈ after.ids := by
  rw [ids, List.map_append, List.mem_append, ids, ids]

theorem mem_ids_concat : i ∈ ids (before ++ [(id, rhs)]) ↔ i ∈ before.ids ∨ i = id := by
  rw [mem_ids_append]
  exact or_congr_right List.mem_singleton

theorem mem_ids : id ∈ ds.ids ↔ ∃ rhs, (id, rhs) ∈ ds := by
  simp [ids]

theorem exists_split (h : (id, rhs) ∈ ds) : ∃ before after : Definitions, ds = before ++ (id, rhs) :: after :=
  List.append_of_mem h

theorem expansion_of_not_mem (h : id ∉ ds.ids) : ds.expansion id = .leaf id :=
  expandBy_of_not_mem fun hm => h (mem_ids_reverse.mp hm)

/-- Later definitions change no expansion. -/
theorem expansion_append (h : id ∉ after.ids) : expansion (before ++ after) id = before.expansion id := by
  rw [expansion, List.reverse_append]
  exact expandBy_append _ fun hm => h (mem_ids_reverse.mp hm)

/-- The identifier that a list of definitions ends with has the others to expand its
    right-hand side by. -/
theorem expansion_concat (before : Definitions) (id rhs : Text) :
    expansion (before ++ [(id, rhs)]) id = .definition ((Text.segments rhs).map (expandSegment before.expansion)) := by
  rw [expansion, List.reverse_append]
  exact if_pos rfl

theorem expand_congr {e e' : Text → Tree} {s : Text} (h : ∀ id ∈ Text.identifiers s, e id = e' id) :
    (Text.segments s).map (expandSegment e) = (Text.segments s).map (expandSegment e') := by
  refine List.map_congr_left fun g hg => ?_
  cases g with
  | ident id => exact h id (Text.mem_identifiers.mpr hg)
  | other c => rfl

theorem Layered.not_mem_split (h : Layered ds) (hds : ds = before ++ (id, rhs) :: after) :
    id ∉ before.ids ∧ ∀ i ∈ ids (before ++ [(id, rhs)]), i ∉ after.ids := by
  have once : (ids (before ++ [(id, rhs)]) ++ after.ids).Nodup := by
    simpa [ids, hds] using h.once
  have first : (before.ids ++ [id]).Nodup := by
    simpa [ids] using (List.nodup_append.mp once).1
  constructor
  · intro hm
    exact (List.nodup_append.mp first).2.2 id hm id (List.mem_singleton_self id) rfl
  · intro i hi hm
    exact (List.nodup_append.mp once).2.2 i hi i hm rfl

/-- The expansion of a type or constant is its right-hand side with expansions for its
    operands. -/
theorem Layered.expansion_of_mem (h : Layered ds) (hd : (id, rhs) ∈ ds) :
    ds.expansion id = .definition ((Text.segments rhs).map (expandSegment ds.expansion)) := by
  obtain ⟨before, after, hds⟩ := exists_split hd
  obtain ⟨fresh, later⟩ := h.not_mem_split hds
  have hsplit : ds = (before ++ [(id, rhs)]) ++ after := by simpa using hds
  have defined : ids (before ++ [(id, rhs)]) = before.ids ++ [id] := by simp [ids]
  have here : ds.expansion id = expansion (before ++ [(id, rhs)]) id := by
    rw [hsplit]
    exact expansion_append (later id (by simp [defined]))
  rw [here, expansion_concat]
  refine congrArg Tree.definition (expand_congr fun i hi => ?_)
  by_cases hm : i ∈ ds.ids
  · have hb : i ∈ before.ids := h.earlier before _ after hds i hi hm
    have hne : i ∉ ids [(id, rhs)] := by
      intro he
      obtain rfl : i = id := List.mem_singleton.mp he
      exact fresh hb
    rw [hsplit, expansion_append (later i (mem_ids_append.mpr (Or.inl hb))), expansion_append hne]
  · rw [expansion_of_not_mem hm, expansion_of_not_mem]
    intro hb
    rw [hds] at hm
    exact hm (mem_ids_append.mpr (Or.inl hb))

/-! ## The first of equal expansion -/

theorem canonical_cases (ds : Definitions) (id : Text) :
    (ds.canonical id ∈ ds.ids ∧ ds.expansion (ds.canonical id) = ds.expansion id) ∨
      (ds.canonical id = id ∧ ∀ d ∈ ds.ids, ds.expansion d ≠ ds.expansion id) := by
  unfold canonical
  cases hf : ds.ids.find? fun d => ds.expansion d = ds.expansion id with
  | none =>
    refine Or.inr ⟨rfl, fun d hd he => ?_⟩
    simpa [he] using List.find?_eq_none.mp hf d hd
  | some d =>
    have same := List.find?_some hf
    exact Or.inl ⟨List.mem_of_find?_eq_some hf, of_decide_eq_true same⟩

theorem expansion_canonical (ds : Definitions) (id : Text) : ds.expansion (ds.canonical id) = ds.expansion id := by
  rcases canonical_cases ds id with ⟨-, h⟩ | ⟨h, -⟩
  · exact h
  · rw [h]

theorem Layered.not_leaf (h : Layered ds) (hi : i ∈ ds.ids) : ds.expansion i ≠ .leaf j := by
  obtain ⟨rhs, hd⟩ := mem_ids.mp hi
  rw [h.expansion_of_mem hd]
  intro he
  cases he

theorem Layered.canonical_of_not_mem (h : Layered ds) (hid : id ∉ ds.ids) : ds.canonical id = id := by
  rcases canonical_cases ds id with ⟨hm, he⟩ | ⟨h', -⟩
  · rw [expansion_of_not_mem hid] at he
    exact absurd he (h.not_leaf hm)
  · exact h'

theorem canonical_mem (hid : id ∈ ds.ids) : ds.canonical id ∈ ds.ids := by
  rcases canonical_cases ds id with ⟨h, -⟩ | ⟨h, -⟩
  · exact h
  · rwa [h]

/-- One identifier stands for all those of one expansion. -/
theorem canonical_eq_iff : ds.canonical i = ds.canonical j ↔ ds.expansion i = ds.expansion j := by
  constructor
  · intro he
    rw [← expansion_canonical ds i, he, expansion_canonical]
  · intro he
    have same : ds.canonical i = (ds.ids.find? fun d => ds.expansion d = ds.expansion j).getD i := by
      rw [canonical, he]
    rw [same, canonical]
    cases hf : ds.ids.find? fun d => ds.expansion d = ds.expansion j with
    | some d => rfl
    | none =>
      have none_same : ∀ d ∈ ds.ids, ds.expansion d ≠ ds.expansion j := by
        intro d hd same
        simpa [same] using List.find?_eq_none.mp hf d hd
      have hi : i ∉ ds.ids := fun hm => none_same i hm he
      have hj : j ∉ ds.ids := fun hm => none_same j hm rfl
      rw [expansion_of_not_mem hi, expansion_of_not_mem hj] at he
      exact Tree.leaf.inj he

theorem canonical_canonical (ds : Definitions) (id : Text) : ds.canonical (ds.canonical id) = ds.canonical id :=
  canonical_eq_iff.mpr (expansion_canonical ds id)

/-- An identifier stands for itself, or one defined before it stands for it. -/
theorem canonical_split (hds : ds = before ++ (id, rhs) :: after) :
    ds.canonical id = id ∧ (∀ d ∈ before.ids, ds.expansion d ≠ ds.expansion id) ∨
      ds.canonical id ∈ before.ids ∧ ds.expansion (ds.canonical id) = ds.expansion id := by
  have split : ds.ids = before.ids ++ id :: after.ids := by simp [ids, hds]
  have found : ds.canonical id =
      ((before.ids.find? fun d => ds.expansion d = ds.expansion id).getD id) := by
    unfold canonical
    rw [split, List.find?_append, List.find?_cons_of_pos (by simp)]
    cases before.ids.find? fun d => ds.expansion d = ds.expansion id with
    | none => rfl
    | some d => rfl
  cases hf : before.ids.find? fun d => ds.expansion d = ds.expansion id with
  | none =>
    refine Or.inl ⟨by rw [found, hf, Option.getD_none], fun d hd he => ?_⟩
    simpa [he] using List.find?_eq_none.mp hf d hd
  | some d =>
    rw [found, hf, Option.getD_some]
    have same := List.find?_some hf
    exact Or.inr ⟨List.mem_of_find?_eq_some hf, of_decide_eq_true same⟩

theorem Layered.isDuplicate_iff (h : Layered ds) (hid : id ∈ ds.ids) : ds.isDuplicate id = true ↔ ds.canonical id ≠ id := by
  obtain ⟨rhs, hd⟩ := mem_ids.mp hid
  obtain ⟨before, after, hds⟩ := exists_split hd
  obtain ⟨fresh, -⟩ := h.not_mem_split hds
  have split : ds.ids = before.ids ++ id :: after.ids := by simp [ids, hds]
  have earlier : (ds.ids.takeWhile fun d => d ≠ id) = before.ids := by
    rw [split, List.takeWhile_append_of_pos, List.takeWhile_cons_of_neg (by simp), List.append_nil]
    intro d hd
    exact decide_eq_true fun he => fresh (he ▸ hd)
  rw [isDuplicate, earlier, List.any_eq_true]
  rcases canonical_split hds with ⟨heq, none_same⟩ | ⟨hm, hsame⟩
  · constructor
    · rintro ⟨d, hd, he⟩
      exact absurd (of_decide_eq_true he) (none_same d hd)
    · exact fun hne => absurd heq hne
  · constructor
    · intro _ heq
      exact fresh (heq ▸ hm)
    · exact fun _ => ⟨_, hm, decide_eq_true hsame⟩

/-! ## Keys -/

theorem Layered.isIdent_canonical (h : Layered ds) (hid : Text.IsIdent id) : Text.IsIdent (ds.canonical id) := by
  by_cases hm : id ∈ ds.ids
  · obtain ⟨d, hd, he⟩ := List.mem_map.mp (canonical_mem hm)
    exact he ▸ h.ident d hd
  · rwa [h.canonical_of_not_mem hm]

theorem Layered.rename_eq_iff (h : Layered ds) (g g' : Text.Segment) :
    g.rename ds.canonical = g'.rename ds.canonical ↔ expandSegment ds.expansion g = expandSegment ds.expansion g' := by
  have not_other : ∀ {i : Text} {c : Char}, ds.expansion i ≠ .other c := by
    intro i c
    by_cases hi : i ∈ ds.ids
    · obtain ⟨rhs, hd⟩ := mem_ids.mp hi
      rw [h.expansion_of_mem hd]
      intro he
      cases he
    · rw [expansion_of_not_mem hi]
      intro he
      cases he
  cases g with
  | ident i =>
    cases g' with
    | ident j =>
      rw [Text.Segment.rename, Text.Segment.rename, Text.Segment.ident.injEq]
      exact canonical_eq_iff
    | other c => exact ⟨fun he => (by cases he), fun he => absurd he not_other⟩
  | other c =>
    cases g' with
    | ident j => exact ⟨fun he => (by cases he), fun he => absurd he.symm not_other⟩
    | other d =>
      rw [Text.Segment.rename, Text.Segment.rename, Text.Segment.other.injEq, expandSegment,
        expandSegment, Tree.other.injEq]

theorem map_eq_map_iff {α β γ : Type} {f : α → β} {g : α → γ} (h : ∀ a b, f a = f b ↔ g a = g b) :
    ∀ {as bs : List α}, as.map f = bs.map f ↔ as.map g = bs.map g
  | [], [] => by simp
  | [], _ :: _ => by simp
  | _ :: _, [] => by simp
  | a :: as, b :: bs => by
    rw [List.map_cons, List.map_cons, List.map_cons, List.map_cons, List.cons.injEq, List.cons.injEq, h,
      map_eq_map_iff h]

/-- Right-hand sides are one text after renaming if and only if they have one expansion. -/
theorem Layered.key_eq_iff (h : Layered ds) (hi : (i, rhs) ∈ ds) (hj : (j, rhs') ∈ ds) :
    Text.renameIds ds.canonical rhs = Text.renameIds ds.canonical rhs' ↔ ds.expansion i = ds.expansion j := by
  have ident : ∀ {s : Text}, ∀ id ∈ Text.identifiers s, Text.IsIdent (ds.canonical id) :=
    fun id hid => h.isIdent_canonical (Text.isIdent_of_mem hid)
  rw [h.expansion_of_mem hi, h.expansion_of_mem hj, Tree.definition.injEq, ← map_eq_map_iff h.rename_eq_iff]
  constructor
  · intro he
    rw [← Text.segments_renameIds ident, he, Text.segments_renameIds ident]
  · intro he
    rw [Text.renameIds_eq, he, Text.renameIds_eq]

end Definitions

end Fusion

end SpirvLink
