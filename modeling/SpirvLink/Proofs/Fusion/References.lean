/-
  SpirvLink.Proofs.Fusion.References — fusion leaves every reference with its definition.

  At each line of the first reading, an identifier defined so far is still defined by a line
  that was kept, or it is renamed; and the renames lead to identifiers that kept lines
  define (`Covers`). So after the second reading no reference is to a deleted definition
  (`definesAll_of_fuse`), though references may precede what they refer to.
-/

import SpirvLink.Proofs.Fusion
import SpirvLink.Proofs.Line.References

namespace SpirvLink

open Line

/-! ## Entries of a table -/

namespace RenameTable

open Fusion (mem_of_lookup)

variable {t : RenameTable} {id : Text}

theorem apply_eq_or_mem (t : RenameTable) (id : Text) : t.apply id = id ∨ ∃ r ∈ t, t.apply id = r.2 := by
  unfold apply
  cases hl : t.lookup id with
  | none => exact Or.inl rfl
  | some new => exact Or.inr ⟨_, mem_of_lookup hl, rfl⟩

theorem apply_of_mem (h : ∃ r ∈ t, r.1 = id) : ∃ r ∈ t, t.apply id = r.2 := by
  unfold apply
  cases hl : t.lookup id with
  | none =>
    obtain ⟨r, hr, rfl⟩ := h
    simpa using List.lookup_eq_none_iff.mp hl r hr
  | some new => exact ⟨_, mem_of_lookup hl, rfl⟩

theorem apply_of_not_mem (h : ∀ r ∈ t, r.1 ≠ id) : t.apply id = id := by
  have none : t.lookup id = none := List.lookup_eq_none_iff.mpr fun r hr => by simpa using (h r hr).symm
  rw [apply, none, Option.getD_none]

/-- An identifier that has an entry has one still, whichever entry is put in. -/
theorem mem_insert {old new : Text} (h : ∃ r ∈ t, r.1 = id) : ∃ r ∈ t.insert old new, r.1 = id := by
  obtain ⟨r, hr, rfl⟩ := h
  by_cases he : r.1 = old
  · exact ⟨(old, new), List.mem_cons_self .., he.symm⟩
  · exact ⟨r, List.mem_cons_of_mem _ (List.mem_filter.mpr ⟨hr, by simpa using he⟩), rfl⟩

end RenameTable

/-! ## The first reading -/

namespace Fusion

variable {s : Fusion} {l l' : Line} {ls ls' : List Line}

/-- What the first reading knows and has made of the lines so far. -/
structure Covers (s : Fusion) (ls ls' : List Line) : Prop where
  known : ∀ r ∈ s.known, r.2 ∈ ls'.filterMap defined?
  renames : ∀ r ∈ s.renames, r.2 ∈ ls'.filterMap defined?
  covered : ∀ id ∈ ls.filterMap defined?, id ∈ ls'.filterMap defined? ∨ ∃ r ∈ s.renames, r.1 = id
  lines : ∀ l' ∈ ls', l' = blank ∨ ∃ l ∈ ls, ∃ f, Text.Keeps f ∧
    (∀ id, f id = id ∨ f id ∈ ls'.filterMap defined?) ∧ l' = l.renameOperands f

theorem covers_start : Covers start [] [] :=
  ⟨fun r hr => (by cases hr), fun r hr => (by cases hr), fun id hid => (by cases hid), fun l hl => (by cases hl)⟩

/-- One more line is read: it is kept with renamed operands, or it is deleted and its
    identifier renamed. -/
theorem Covers.push {s' : Fusion} (c : Covers s ls ls')
    (known : ∀ r ∈ s'.known, r.2 ∈ (ls' ++ [l']).filterMap defined?)
    (renames : ∀ r ∈ s'.renames, r.2 ∈ (ls' ++ [l']).filterMap defined?)
    (grown : ∀ id, (∃ r ∈ s.renames, r.1 = id) → ∃ r ∈ s'.renames, r.1 = id)
    (here : (∃ f, Text.Keeps f ∧ (∀ id, f id = id ∨ f id ∈ ls'.filterMap defined?) ∧ l' = l.renameOperands f) ∨
      l' = blank ∧ ∀ id ∈ l.defined?, ∃ r ∈ s'.renames, r.1 = id) : Covers s' (ls ++ [l]) (ls' ++ [l']) := by
  have more : ls'.filterMap defined? ⊆ (ls' ++ [l']).filterMap defined? := by
    rw [List.filterMap_append]
    exact List.subset_append_left ..
  refine ⟨known, renames, fun id hid => ?_, fun k hk => ?_⟩
  · rw [List.filterMap_append, List.mem_append] at hid
    rcases hid with hid | hid
    · exact (c.covered id hid).imp (more ·) (grown id)
    · obtain ⟨k, hk, hd⟩ := List.mem_filterMap.mp hid
      cases List.mem_singleton.mp hk
      rcases here with ⟨f, keeps, -, rfl⟩ | ⟨-, hrenamed⟩
      · refine Or.inl (List.mem_filterMap.mpr ⟨_, List.mem_append_right _ (List.mem_singleton.mpr rfl), ?_⟩)
        rw [defined?_renameOperands keeps, hd]
      · exact Or.inr (hrenamed id hd)
  · rcases List.mem_append.mp hk with hk | hk
    · refine (c.lines k hk).imp_right fun ⟨j, hj, f, keeps, targets, heq⟩ => ?_
      exact ⟨j, List.mem_append_left _ hj, f, keeps, fun id => (targets id).imp_right (more ·), heq⟩
    · cases List.mem_singleton.mp hk
      rcases here with ⟨f, keeps, targets, heq⟩ | ⟨hblank, -⟩
      · exact Or.inr ⟨l, List.mem_append_right _ (List.mem_singleton.mpr rfl), f, keeps,
          fun id => (targets id).imp_right (more ·), heq⟩
      · exact Or.inl hblank

/-- The renames lead to identifiers that kept lines define. -/
theorem Covers.targets (c : Covers s ls ls') (id : Text) :
    s.renames.apply id = id ∨ s.renames.apply id ∈ ls'.filterMap defined? := by
  rcases RenameTable.apply_eq_or_mem s.renames id with he | ⟨r, hr, he⟩
  · exact Or.inl he
  · exact Or.inr (he ▸ c.renames r hr)

theorem Covers.readLine (named : Named s) (c : Covers s ls ls') (l : Line) :
    Covers (s.readLine l).1 (ls ++ [l]) (ls' ++ [(s.readLine l).2]) := by
  have keeps := keeps_apply named.renames
  have more : ∀ k : Line, ls'.filterMap defined? ⊆ (ls' ++ [k]).filterMap defined? := by
    intro k
    rw [List.filterMap_append]
    exact List.subset_append_left ..
  rcases hr : s.readLine l with ⟨s', l'⟩
  cases readLine_eq_iff.mp hr with
  | bare _ =>
    exact c.push (fun r hr => more _ (c.known r hr)) (fun r hr => more _ (c.renames r hr)) (fun _ h => h)
      (Or.inl ⟨fun id => id, fun _ _ => Or.inl rfl, fun _ => Or.inl rfl, l.renameOperands_id.symm⟩)
  | other _ _ =>
    exact c.push (fun r hr => more _ (c.known r hr)) (fun r hr => more _ (c.renames r hr)) (fun _ h => h)
      (Or.inl ⟨_, keeps, c.targets, rfl⟩)
  | @deleted id key first _ hd hk =>
    have defined := defined?_of_definition hd
    refine c.push (fun r hr => more _ (c.known r hr)) (fun r hr => ?_) (fun _ h => RenameTable.mem_insert h)
      (Or.inr ⟨rfl, fun id' hid' => ?_⟩)
    · rcases List.mem_cons.mp hr with rfl | hr
      · exact more _ (c.known (key, first) (mem_of_lookup hk))
      · exact more _ (c.renames r (List.mem_filter.mp hr).1)
    · rw [defined?_renameOperands keeps] at defined
      exact ⟨_, List.mem_cons_self .., Option.some.inj (defined.symm.trans hid')⟩
  | kept _ hd _ =>
    refine c.push (fun r hr => ?_) (fun r hr => more _ (c.renames r hr)) (fun _ h => h)
      (Or.inl ⟨_, keeps, c.targets, rfl⟩)
    rcases List.mem_cons.mp hr with rfl | hr
    · exact List.mem_filterMap.mpr ⟨_, List.mem_append_right _ (List.mem_singleton.mpr rfl), defined?_of_definition hd⟩
    · exact more _ (c.known r hr)

theorem Covers.readLines : ∀ {s : Fusion} {ls ls' : List Line} (new : List Line), Named s → Covers s ls ls' →
    Covers (s.readLines new).1 (ls ++ new) (ls' ++ (s.readLines new).2)
  | _, ls, ls', [], _, c => by
    rw [List.append_nil]
    exact (List.append_nil ls').symm ▸ c
  | s, ls, ls', l :: new, named, c => by
    have rest := Covers.readLines new (readLine_named named l) (c.readLine named l)
    rw [List.append_assoc, List.append_assoc] at rest
    exact rest

/-- A renaming to what kept lines define is one to identifiers. -/
theorem Covers.isIdent (c : Covers s ls ls') (ident : ∀ l ∈ ls, ∀ id ∈ l.defined?, Text.IsIdent id) {f : Text → Text}
    (targets : ∀ id, f id = id ∨ f id ∈ ls'.filterMap defined?) (id : Text) (hid : Text.IsIdent id) : Text.IsIdent (f id) := by
  rcases targets id with he | hm
  · rwa [he]
  · obtain ⟨k, hk, hd⟩ := List.mem_filterMap.mp hm
    rcases c.lines k hk with rfl | ⟨l, hl, g, keeps, -, rfl⟩
    · cases hd
    · rw [defined?_renameOperands keeps] at hd
      exact ident l hl _ hd

/-- Once the table has renamed the kept lines, they define all that they refer to. -/
theorem Covers.definesAll (named : Named s) (c : Covers s ls ls') (ident : ∀ l ∈ ls, ∀ id ∈ l.defined?, Text.IsIdent id)
    (all : DefinesAll ls) {k : Line} (hk : k ∈ ls') :
    ∀ id ∈ (k.renameOperands s.renames.apply).references, id ∈ ls'.filterMap defined? := by
  intro id hid
  rw [references_renameOperands (keeps_apply named.renames) (c.isIdent ident c.targets)] at hid
  obtain ⟨y, hy, rfl⟩ := List.mem_map.mp hid
  refine (c.targets y).elim (fun same => ?_) (fun hm => hm)
  rw [same]
  rcases c.lines k hk with rfl | ⟨j, hj, f, keeps, targets, rfl⟩
  · cases hy
  rw [references_renameOperands keeps (c.isIdent ident targets)] at hy
  obtain ⟨x, hx, rfl⟩ := List.mem_map.mp hy
  rcases targets x with he | hm
  · -- The table leaves the reference as it is, so either its definition was kept or it is a target.
    rw [he] at same ⊢
    rcases c.covered x (all j hj x hx) with hm | hr
    · exact hm
    · obtain ⟨r, hr, hnew⟩ := RenameTable.apply_of_mem hr
      exact same ▸ hnew ▸ c.renames r hr
  · exact hm

end Fusion

open Fusion

/-! ## The whole module -/

/-- The lines of the fused module are those of the first reading, renamed by its table, without
    some that have no code. -/
theorem lines_of_fuse {m m' : Module} {n : Nat} (h : m.fuse.result = .ok (n, m')) :
    ∃ p : Line → Bool, (∀ l, l.hasCode = true → p l = true) ∧
      m'.lines = ((start.readLines m.lines).2.map
        (Line.renameOperands (start.readLines m.lines).1.renames.apply)).filter p := by
  have read := readLines_flatMap start m.blocks
  rw [← Module.lines] at read
  rw [read]
  unfold Module.fuse at h
  dsimp only at h ⊢
  split at h
  · next hempty =>
    cases h
    have same : Line.renameOperands (start.readBlocks m.blocks).1.renames.apply = id := by
      rw [List.isEmpty_iff.mp hempty]
      exact funext renameOperands_id
    refine ⟨fun _ => true, fun _ _ => rfl, ?_⟩
    rw [same, List.map_id, List.filter_true]
    rfl
  · cases h
    refine ⟨fun l => !l.isEmpty, fun l hl => by simp [Block.not_isEmpty_of_hasCode hl], ?_⟩
    rw [Module.mapLines, Module.mapBlocks, Module.mapBlocks, List.map_map, Module.lines, List.flatMap_map, List.map_flatMap,
      List.filter_flatMap]
    rfl

/-- Fusion deletes no definition that a reference needs. -/
theorem definesAll_of_fuse {m m' : Module} {n : Nat} (h : m.fuse.result = .ok (n, m'))
    (ident : ∀ l ∈ m.lines, ∀ id ∈ l.defined?, Text.IsIdent id) (all : DefinesAll m.lines) : DefinesAll m'.lines := by
  have named := (readLines_fates m.lines named_start).1
  have covers : Covers (start.readLines m.lines).1 m.lines (start.readLines m.lines).2 :=
    Covers.readLines m.lines named_start covers_start
  obtain ⟨p, code, lines⟩ := lines_of_fuse h
  intro l hl id hid
  rw [lines] at hl ⊢
  obtain ⟨k, hk, rfl⟩ := List.mem_map.mp (List.mem_filter.mp hl).1
  obtain ⟨j, hj, hd⟩ := List.mem_filterMap.mp (covers.definesAll named ident all hk id hid)
  have defined := (defined?_renameOperands (keeps_apply named.renames) j).trans hd
  exact List.mem_filterMap.mpr
    ⟨_, List.mem_filter.mpr ⟨List.mem_map_of_mem hj, code _ (hasCode_of_defined defined)⟩, defined⟩

end SpirvLink
