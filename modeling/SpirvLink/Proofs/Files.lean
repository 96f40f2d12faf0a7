/-
  SpirvLink.Proofs.Files — what creating a file leaves as it was.

  A file is created at the place that its path leads to, which is no directory. Following a
  path goes through directories only, so it leads to the same place afterwards (`enter_put`),
  and reading the path gives the text that was written (`Places.read_put`). Every other place
  holds what it held (`node?_put_of_ne`).
-/

import SpirvLink.Files.Tree
import SpirvLink.Proofs.Success

namespace SpirvLink.FileTree

variable {t t' : FileTree} {place place' from' : List Text} {n : FileNode} {path text : Text} {p : Path}

/-! ## Nodes -/

theorem node?_put (h : place ≠ []) : (t.put place n).node? place = some n := by
  rw [node?, if_neg (by simpa using h), put, List.lookup_cons_self]

theorem node?_put_of_ne (h : place' ≠ place) : (t.put place n).node? place' = t.node? place' := by
  have others : ∀ nodes : List (List Text × FileNode),
      (nodes.filter fun e => e.1 != place).lookup place' = nodes.lookup place' := by
    intro nodes
    induction nodes with
    | nil => rfl
    | cons e nodes ih =>
      by_cases he : e.1 = place
      · rw [List.filter_cons_of_neg (by simp [he]), ih, List.lookup_cons, he, beq_false_of_ne h]
      · rw [List.filter_cons_of_pos (by simp [he]), List.lookup_cons, List.lookup_cons, ih]
  rw [node?, node?, put, List.lookup_cons, beq_false_of_ne h]
  simp only [others]

/-! ## Paths -/

/-- The directories on the way to a directory are not the place of a file that is put. -/
theorem enter_put (h : t.node? place ≠ some .directory) : ∀ {names : List Text} {from' : List Text},
    t.enter from' names = .ok place' → (t.put place n).enter from' names = .ok place'
  | [], _, he => he
  | name :: names, from', he => by
    rw [enter] at he ⊢
    by_cases here : name = Path.here
    · rw [if_pos here] at he ⊢
      exact enter_put h he
    · rw [if_neg here] at he ⊢
      by_cases above : name = Path.above
      · rw [if_pos above] at he ⊢
        exact enter_put h he
      · rw [if_neg above] at he ⊢
        cases hnode : t.node? (from' ++ [name]) with
        | none =>
          rw [hnode] at he
          cases he
        | some node =>
          rw [hnode] at he
          cases node with
          | file content => cases he
          | directory =>
            have apart : from' ++ [name] ≠ place := fun heq => h (heq ▸ hnode)
            rw [node?_put_of_ne apart, hnode]
            exact enter_put h he

theorem locate_eq_some : t.locate p = .ok (some place) ↔
    ∃ last directory, p.names.getLast? = some last ∧ t.enter (t.origin p) p.names.dropLast = .ok directory ∧
      ¬ (last = Path.here ∨ last = Path.above) ∧ place = directory ++ [last] := by
  unfold locate
  cases hlast : p.names.getLast? with
  | none =>
    have none : (if p.absolute = true then Except.ok none else Except.error FileFault.notFound) ≠
        .ok (some place) := by
      split <;> simp
    exact ⟨fun h => absurd h none, fun ⟨_, _, h, _⟩ => (by cases h)⟩
  | some last =>
    simp only [bind_eq_ok]
    constructor
    · rintro ⟨directory, he, h⟩
      split at h
      · cases h
      · cases h
        exact ⟨last, directory, rfl, he, ‹_›, rfl⟩
    · rintro ⟨last', directory, hl, he, hnot, rfl⟩
      cases hl
      exact ⟨directory, he, by rw [if_neg hnot]; rfl⟩

theorem locate_put (h : t.node? place ≠ some .directory) (hl : t.locate p = .ok (some place')) :
    (t.put place n).locate p = .ok (some place') := by
  obtain ⟨last, directory, hlast, he, hnot, rfl⟩ := locate_eq_some.mp hl
  exact locate_eq_some.mpr ⟨last, directory, hlast, enter_put h he, hnot, rfl⟩

theorem ne_nil_of_locate (h : t.locate p = .ok (some place)) : place ≠ [] := by
  obtain ⟨last, directory, -, -, -, rfl⟩ := locate_eq_some.mp h
  simp

/-! ## Creating a file -/

/-- The path leads to a place where a file is, or can be. -/
structure Places (t : FileTree) (path : Text) (place : List Text) : Prop where
  leads : t.locate (.ofText path) = .ok (some place)
  plain : (Path.ofText path).endsInSlash = false
  free : t.node? place ≠ some .directory

theorem Places.create (h : t.Places path place) (text : Text) :
    t.create path text = .ok (t.put place (.file (some text))) := by
  refine bind_eq_ok.mpr ⟨some place, h.leads, ?_⟩
  simp only [h.plain, Bool.false_eq_true, if_false]
  cases hnode : t.node? place with
  | none => rfl
  | some node =>
    cases node with
    | directory => exact absurd hnode h.free
    | file content => rfl

theorem places_of_create (h : t.create path text = .ok t') : ∃ place, t.Places path place := by
  obtain ⟨found, hl, h⟩ := bind_eq_ok.mp (show t.locate (.ofText path) >>= _ = .ok t' from h)
  cases found with
  | none => cases h
  | some place =>
    cases hslash : (Path.ofText path).endsInSlash with
    | true =>
      simp only [hslash, if_true] at h
      cases h
    | false =>
      simp only [hslash, Bool.false_eq_true, if_false] at h
      refine ⟨place, hl, hslash, fun hnode => ?_⟩
      simp only [hnode] at h
      cases h

/-- The created file reads as what was written. -/
theorem Places.read_put (h : t.Places path place) (text : Text) :
    (t.put place (.file (some text))).read path = .ok text := by
  refine bind_eq_ok.mpr ⟨some place, locate_put h.free h.leads, ?_⟩
  simp only [node?_put (ne_nil_of_locate h.leads), h.plain, Bool.false_eq_true, if_false]
  rfl

end SpirvLink.FileTree
