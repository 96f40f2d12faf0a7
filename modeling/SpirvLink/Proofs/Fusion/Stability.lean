/-
  SpirvLink.Proofs.Fusion.Stability — when fusing again finds nothing.

  The first reading keeps no two types or constants with one right-hand side. The second one
  renames once more, and could make two of them equal: a definition that another used before
  it was read may have been deleted. Where what is used ahead of its definition is left
  (`Definitions.Settles`), the right-hand side of every definition read so far, with the
  renames found so far, is known at each line (`Settled`). So the second reading leaves what
  the first one kept.

  Result: `nodup_of_fuse`.
-/

import SpirvLink.Proofs.Fusion.HashConsing
import SpirvLink.Proofs.Fusion.References

namespace SpirvLink

open Fusion

namespace Fusion

/-! ## One definition read -/

/-- What reading a line does with the definition on it: from what is known, to what is known
    then and to the definition that is left on the line. -/
inductive Reads (s : Fusion) : Option (Text × Text) → Fusion → Option (Text × Text) → Prop where
  | other : Reads s none s none
  | deleted {id rhs first : Text} (log : List Event) (h : s.known.lookup (Text.renameIds s.renames.apply rhs) = some first) :
      Reads s (some (id, rhs)) ⟨s.known, s.renames.insert id first, log⟩ none
  | kept {id rhs : Text} (h : s.known.lookup (Text.renameIds s.renames.apply rhs) = none) :
      Reads s (some (id, rhs)) ⟨(Text.renameIds s.renames.apply rhs, id) :: s.known, s.renames, s.log⟩
        (some (id, Text.renameIds s.renames.apply rhs))

variable {done kept : Definitions} {d : Text × Text} {found found' : Option (Text × Text)} {s s' : Fusion} {l : Line} {id rhs first : Text}

theorem readLine_reads (named : Named s) (l : Line) : Reads s (definition? l) (s.readLine l).1 (definition? (s.readLine l).2) := by
  have renamed := Line.definition?_renameOperands (keeps_apply named.renames) l
  rcases hr : s.readLine l with ⟨s', l'⟩
  cases readLine_eq_iff.mp hr with
  | bare hcode =>
    have none : definition? l = none := Option.eq_none_iff_forall_ne_some.mpr fun d hd => by
      rw [hasCode_of_definition hd] at hcode
      cases hcode
    rw [none]
    exact .other
  | other _ hd =>
    rw [hd, eq_comm, Option.map_eq_none_iff] at renamed
    rw [renamed, hd]
    exact .other
  | deleted _ hd hk =>
    rw [hd, eq_comm, Option.map_eq_some_iff] at renamed
    obtain ⟨⟨id, rhs⟩, hl, heq⟩ := renamed
    cases heq
    rw [hl]
    exact .deleted _ hk
  | kept _ hd hk =>
    rw [hd, eq_comm, Option.map_eq_some_iff] at renamed
    obtain ⟨⟨id, rhs⟩, hl, heq⟩ := renamed
    cases heq
    rw [hl, hd]
    exact .kept hk

/-! ## Definitions that settle -/

/-- What a right-hand side uses before it is defined is defined once, and left. -/
def Definitions.LeavesAhead (ds : Definitions) (left : List Text) : Prop :=
  ∀ n, (hn : n < ds.length) → ∀ i ∈ Text.identifiers ds[n].2, i ∈ ds.ids → i ∉ Definitions.ids (ds.take n) →
    i ∈ left ∧ ds.ids.count i = 1

set_option synthInstance.maxSize 400 in
instance (ds : Definitions) (left : List Text) : Decidable (ds.LeavesAhead left) :=
  inferInstanceAs (Decidable (∀ n, (_ : n < ds.length) → _))

theorem Definitions.LeavesAhead.of_split {ds before later : Definitions} {d : Text × Text} {left : List Text} {i : Text}
    (h : ds.LeavesAhead left) (hds : ds = before ++ d :: later) (hi : i ∈ Text.identifiers d.2) (hin : i ∈ ds.ids)
    (hbefore : i ∉ before.ids) : i ∈ left ∧ ds.ids.count i = 1 := by
  have index : before.length < ds.length := by simp [hds]
  have here := h before.length index i
  have atIndex : ds[before.length] = d := by simp [hds]
  rw [atIndex] at here
  exact here hi hin (by rwa [hds, List.take_left])

/-- A definition that is not left is one that nothing read so far uses. -/
theorem Definitions.LeavesAhead.unused {done later : Definitions} {d e : Text × Text} {left : List Text}
    (h : Definitions.LeavesAhead (done ++ [d] ++ later) left) (hleft : ∀ i ∈ left, i ∈ done.ids ∨ i ∈ later.ids)
    (new : d.1 ∉ done.ids) (he : e ∈ done ++ [d]) : d.1 ∉ Text.identifiers e.2 := by
  intro hi
  have split : ∃ before after : Definitions, done ++ [d] = before ++ e :: after ∧ d.1 ∉ before.ids := by
    rcases List.mem_append.mp he with he | he
    · obtain ⟨before, after, rfl⟩ := List.append_of_mem he
      refine ⟨before, after ++ [d], by rw [List.append_assoc, List.cons_append], fun hm => new ?_⟩
      exact Definitions.mem_ids_append.mpr (Or.inl hm)
    · cases List.mem_singleton.mp he
      exact ⟨done, [], rfl, new⟩
  obtain ⟨before, after, hds, hbefore⟩ := split
  have ids : Definitions.ids (done ++ [d] ++ later) = done.ids ++ d.1 :: later.ids := by
    simp [Definitions.ids]
  have whole : done ++ [d] ++ later = before ++ e :: (after ++ later) := by rw [hds, List.append_assoc, List.cons_append]
  have defined : d.1 ∈ Definitions.ids (done ++ [d] ++ later) := by
    rw [ids]
    exact List.mem_append_right _ (List.mem_cons_self ..)
  obtain ⟨hm, count⟩ := h.of_split whole hi defined hbefore
  have twice := List.count_pos_iff.mpr ((hleft d.1 hm).resolve_left new)
  rw [ids, List.count_append, List.count_cons_self] at count
  omega

/-- Fusion settles these definitions when it leaves these identifiers: each is read as one
    identifier, two definitions of one have one right-hand side, and what is used ahead of its
    definition is left. -/
structure Definitions.Settles (ds : Definitions) (left : List Text) : Prop where
  ident : ∀ id ∈ ds.ids, Text.IsIdent id
  agree : ∀ d ∈ ds, ∀ e ∈ ds, d.1 = e.1 → d.2 = e.2
  ahead : ds.LeavesAhead left

instance (ds : Definitions) (left : List Text) : Decidable (ds.Settles left) :=
  decidable_of_iff ((∀ id ∈ ds.ids, Text.IsIdent id) ∧ (∀ d ∈ ds, ∀ e ∈ ds, d.1 = e.1 → d.2 = e.2) ∧ ds.LeavesAhead left)
    ⟨fun ⟨h₁, h₂, h₃⟩ => ⟨h₁, h₂, h₃⟩, fun h => ⟨h.ident, h.agree, h.ahead⟩⟩

theorem ids_subset_of_fates {ls ls' : List Line} (h : List.Forall₂ Fate ls ls') :
    Definitions.ids (ls'.filterMap definition?) ⊆ Definitions.ids (ls.filterMap definition?) := by
  intro id hid
  obtain ⟨key, hd⟩ := Definitions.mem_ids.mp hid
  obtain ⟨l', hl', hdef⟩ := List.mem_filterMap.mp hd
  obtain ⟨l, hl, ⟨f, keeps, rfl⟩ | ⟨rfl, -⟩⟩ := exists_of_forall₂_right h l' hl'
  · rw [Line.definition?_renameOperands keeps] at hdef
    obtain ⟨⟨i, rhs⟩, hread, heq⟩ := Option.map_eq_some_iff.mp hdef
    cases heq
    exact Definitions.mem_ids.mpr ⟨rhs, List.mem_filterMap.mpr ⟨l, hl, hread⟩⟩
  · cases hdef

/-- Definitions that use only what is defined before them settle, whatever is left. -/
theorem Definitions.Layered.settles {ds : Definitions} (h : ds.Layered) (left : List Text) : ds.Settles left := by
  refine ⟨fun id hid => ?_, fun d hd e he same => ?_, fun n hn i hi hin hbefore => ?_⟩
  · obtain ⟨rhs, hd⟩ := Definitions.mem_ids.mp hid
    exact h.ident _ hd
  · exact congrArg Prod.snd (List.inj_on_of_nodup_map h.once hd he same)
  · have split : ds = ds.take n ++ ds[n] :: ds.drop (n + 1) := by rw [← List.drop_eq_getElem_cons hn, List.take_append_drop]
    exact absurd (h.earlier _ _ _ split i hi hin) hbefore

/-- What is so after some definitions were read, and some of them kept with other operands. No
    two of these have one identifier or one right-hand side, they are what is known, and their
    identifiers are not renamed. Every definition read is one of them once it is renamed. -/
structure Settled (done kept : Definitions) (s : Fusion) : Prop where
  known : ∀ key first, s.known.lookup key = some first ↔ (first, key) ∈ kept
  keys : (kept.map Prod.snd).Nodup
  ids : kept.ids.Nodup
  subset : kept.ids ⊆ done.ids
  renames : ∀ r ∈ s.renames, r.1 ∈ done.ids ∧ r.2 ∈ kept.ids
  fixed : ∀ i ∈ kept.ids, s.renames.apply i = i
  settled : ∀ d ∈ done, (s.renames.apply d.1, Text.renameIds s.renames.apply d.2) ∈ kept

theorem settled_start : Settled [] [] start := by
  refine ⟨fun key first => ?_, List.nodup_nil, List.nodup_nil, List.nil_subset _, ?_, ?_, ?_⟩
  · simp [start]
  all_goals
    intro _ h
    cases h

namespace Settled

theorem apply_of_new (h : Settled done kept s) (new : id ∉ done.ids) : s.renames.apply id = id :=
  RenameTable.apply_of_not_mem fun r hr he => new (he ▸ (h.renames r hr).1)

/-- Renaming twice is renaming once. -/
theorem apply_apply (h : Settled done kept s) (i : Text) : s.renames.apply (s.renames.apply i) = s.renames.apply i := by
  rcases RenameTable.apply_eq_or_mem s.renames i with heq | ⟨r, hr, heq⟩
  · rw [heq, heq]
  · rw [heq]
    exact h.fixed _ (h.renames r hr).2

theorem isIdent (h : Settled done kept s) (ident : ∀ id ∈ done.ids, Text.IsIdent id) {i : Text} (hi : Text.IsIdent i) :
    Text.IsIdent (s.renames.apply i) := by
  rcases RenameTable.apply_eq_or_mem s.renames i with heq | ⟨r, hr, heq⟩
  · rwa [heq]
  · rw [heq]
    exact ident _ (h.subset (h.renames r hr).2)

/-- What is kept stays as it is when it is renamed once more. -/
theorem renameIds_eq (h : Settled done kept s) (ident : ∀ id ∈ done.ids, Text.IsIdent id) (hd : d ∈ kept) :
    Text.renameIds s.renames.apply d.2 = d.2 := by
  obtain ⟨rhs, hread⟩ := Definitions.mem_ids.mp (h.subset (List.mem_map_of_mem hd))
  have same := h.settled _ hread
  dsimp only at same
  rw [h.fixed d.1 (List.mem_map_of_mem hd)] at same
  -- No other definition kept has this identifier.
  have key : Text.renameIds s.renames.apply rhs = d.2 := by
    have := List.inj_on_of_nodup_map h.ids same hd rfl
    exact congrArg Prod.snd this
  rw [← key, Text.renameIds_renameIds _ fun i hi => h.isIdent ident (Text.isIdent_of_mem hi)]
  exact Text.renameIds_congr fun i _ => h.apply_apply i

/-! ## One more definition -/

/-- A definition of an identifier read before is deleted, and renames it to what it was renamed to. -/
theorem repeated (h : Settled done kept s) (hread : (id, rhs) ∈ done) (log : List Event) :
    s.known.lookup (Text.renameIds s.renames.apply rhs) = some (s.renames.apply id) ∧
      Settled (done ++ [(id, rhs)]) kept ⟨s.known, s.renames.insert id (s.renames.apply id), log⟩ := by
  have here := h.settled _ hread
  have same : (s.renames.insert id (s.renames.apply id)).apply = s.renames.apply := by
    funext i
    rw [RenameTable.apply_insert]
    split
    · next he => rw [he]
    · rfl
  refine ⟨(h.known _ _).mpr here, h.known, h.keys, h.ids, fun i hi => ?_, fun r hr => ?_, fun i hi => ?_, fun d hd => ?_⟩
  · exact Definitions.mem_ids_concat.mpr (Or.inl (h.subset hi))
  · rcases List.mem_cons.mp hr with rfl | hr
    · exact ⟨Definitions.mem_ids_concat.mpr (Or.inr rfl), List.mem_map_of_mem here⟩
    · exact (h.renames r (List.mem_filter.mp hr).1).imp_left fun hm => Definitions.mem_ids_concat.mpr (Or.inl hm)
  · dsimp only
    rw [same]
    exact h.fixed i hi
  · dsimp only
    rw [same]
    rcases List.mem_append.mp hd with hd | hd
    · exact h.settled d hd
    · cases List.mem_singleton.mp hd
      exact here

/-- A definition that is deleted renames its identifier, which no definition so far uses. -/
theorem delete (h : Settled done kept s) (unused : ∀ d ∈ done ++ [(id, rhs)], id ∉ Text.identifiers d.2) (new : id ∉ done.ids)
    (hfirst : s.known.lookup (Text.renameIds s.renames.apply rhs) = some first) (log : List Event) :
    Settled (done ++ [(id, rhs)]) kept ⟨s.known, s.renames.insert id first, log⟩ := by
  have target := (h.known _ _).mp hfirst
  have other : ∀ {i}, i ≠ id → (s.renames.insert id first).apply i = s.renames.apply i := fun hi => by
    rw [RenameTable.apply_insert, if_neg hi]
  have rhs_same : ∀ d ∈ done ++ [(id, rhs)],
      Text.renameIds (s.renames.insert id first).apply d.2 = Text.renameIds s.renames.apply d.2 := fun d hd =>
    Text.renameIds_congr fun i hi => other fun he => unused d hd (he ▸ hi)
  refine ⟨h.known, h.keys, h.ids, fun i hi => ?_, fun r hr => ?_, fun i hi => ?_, fun d hd => ?_⟩
  · exact Definitions.mem_ids_concat.mpr (Or.inl (h.subset hi))
  · rcases List.mem_cons.mp hr with rfl | hr
    · exact ⟨Definitions.mem_ids_concat.mpr (Or.inr rfl), List.mem_map_of_mem target⟩
    · exact (h.renames r (List.mem_filter.mp hr).1).imp_left fun hm => Definitions.mem_ids_concat.mpr (Or.inl hm)
  · exact (other fun he => new (he ▸ h.subset hi)).trans (h.fixed i hi)
  · dsimp only
    rw [rhs_same d hd]
    rcases List.mem_append.mp hd with hd | hd
    · rw [other fun he => new (he ▸ List.mem_map_of_mem hd)]
      exact h.settled d hd
    · cases List.mem_singleton.mp hd
      rw [RenameTable.apply_insert, if_pos rfl]
      exact target

/-- A definition that is kept is known from then on. -/
theorem keep (h : Settled done kept s) (new : id ∉ done.ids)
    (unknown : s.known.lookup (Text.renameIds s.renames.apply rhs) = none) :
    Settled (done ++ [(id, rhs)]) (kept ++ [(id, Text.renameIds s.renames.apply rhs)])
      ⟨(Text.renameIds s.renames.apply rhs, id) :: s.known, s.renames, s.log⟩ := by
  generalize hkey : Text.renameIds s.renames.apply rhs = key at unknown ⊢
  have absent : ∀ i, (i, key) ∉ kept := fun i hi => by
    rw [(h.known key i).mpr hi] at unknown
    cases unknown
  have split : Definitions.ids (kept ++ [(id, key)]) = kept.ids ++ [id] := List.map_append
  refine ⟨fun k first => ?_, ?_, ?_, fun i hi => ?_, fun r hr => ?_, fun i hi => ?_, fun d hd => ?_⟩
  · rw [List.lookup_cons, List.mem_append, List.mem_singleton, Prod.mk.injEq]
    by_cases hk : k = key
    · simp [hk, absent, eq_comm]
    · rw [beq_eq_false_iff_ne.mpr hk]
      simp [hk, h.known]
  · rw [List.map_append, List.nodup_append]
    refine ⟨h.keys, List.nodup_singleton _, ?_⟩
    rintro k hk _ hlast rfl
    cases List.mem_singleton.mp hlast
    obtain ⟨d, hd, rfl⟩ := List.mem_map.mp hk
    exact absent d.1 hd
  · rw [split, List.nodup_append]
    refine ⟨h.ids, List.nodup_singleton _, ?_⟩
    rintro i hi _ hlast rfl
    cases List.mem_singleton.mp hlast
    exact new (h.subset hi)
  · exact Definitions.mem_ids_concat.mpr ((Definitions.mem_ids_concat.mp hi).imp_left (h.subset ·))
  · exact (h.renames r hr).imp (fun hm => Definitions.mem_ids_concat.mpr (Or.inl hm))
      fun hm => Definitions.mem_ids_concat.mpr (Or.inl hm)
  · rcases Definitions.mem_ids_concat.mp hi with hi | rfl
    · exact h.fixed i hi
    · exact h.apply_of_new new
  · rcases List.mem_append.mp hd with hd | hd
    · exact List.mem_append_left _ (h.settled d hd)
    · cases List.mem_singleton.mp hd
      refine List.mem_append_right _ (List.mem_singleton.mpr ?_)
      rw [hkey, h.apply_of_new new]

theorem reads (h : Settled done kept s) (step : Reads s found s' found')
    (agree : ∀ d ∈ done, ∀ e ∈ found, d.1 = e.1 → d.2 = e.2)
    (unused : found' = none → ∀ d ∈ found, d.1 ∉ done.ids → ∀ e ∈ done ++ [d], d.1 ∉ Text.identifiers e.2) :
    Settled (done ++ found.toList) (kept ++ found'.toList) s' := by
  have again : ∀ {id rhs}, found = some (id, rhs) → id ∈ done.ids → (id, rhs) ∈ done := by
    intro id rhs hfound hread
    obtain ⟨rhs', hd⟩ := Definitions.mem_ids.mp hread
    have same : rhs' = rhs := agree _ hd (id, rhs) hfound rfl
    exact same ▸ hd
  cases step with
  | other => simpa using h
  | @deleted id rhs first log hfirst =>
    rw [Option.toList_none, List.append_nil]
    by_cases hread : id ∈ done.ids
    · obtain ⟨hknown, settled⟩ := h.repeated (again rfl hread) log
      cases hfirst.symm.trans hknown
      exact settled
    · exact h.delete (unused rfl _ rfl hread) hread hfirst log
  | @kept id rhs unknown =>
    by_cases hread : id ∈ done.ids
    · cases unknown.symm.trans (h.repeated (again rfl hread) []).1
    · exact h.keep hread unknown

/-! ## All definitions -/

theorem readLines : ∀ {done kept : Definitions} {s : Fusion} {ls : List Line}, Named s → Settled done kept s →
    Definitions.Settles (done ++ ls.filterMap definition?)
      (Definitions.ids (kept ++ (s.readLines ls).2.filterMap definition?)) →
    Settled (done ++ ls.filterMap definition?) (kept ++ (s.readLines ls).2.filterMap definition?) (s.readLines ls).1
  | done, kept, s, [], _, h, _ => by
    rw [List.filterMap_nil, List.append_nil]
    exact (List.append_nil kept).symm ▸ h
  | done, kept, s, l :: ls, named, h, settles => by
    have named' := readLine_named named l
    have last : kept ++ (s.readLines (l :: ls)).2.filterMap definition? =
        (kept ++ (definition? (s.readLine l).2).toList) ++ ((s.readLine l).1.readLines ls).2.filterMap definition? := by
      rw [List.append_assoc, ← filterMap_cons_definition]
      rfl
    rw [last] at settles ⊢
    rw [filterMap_cons_definition, ← List.append_assoc] at settles ⊢
    refine (h.reads (readLine_reads named l) (fun d hd e he => ?_) fun hnone d hfound new e he hi => ?_).readLines named' settles
    · exact settles.agree d (List.mem_append_left _ (List.mem_append_left _ hd)) e
        (List.mem_append_left _ (List.mem_append_right _ (Option.mem_toList.mpr he)))
    · rw [Option.mem_def.mp hfound, Option.toList_some] at settles
      refine settles.ahead.unused (fun i hi => ?_) new he hi
      rw [hnone, Option.toList_none, List.append_nil, Definitions.mem_ids_append] at hi
      exact hi.imp (h.subset ·) (ids_subset_of_fates (readLines_fates ls named').2 ·)

end Settled

/-- Dropping lines without code drops nothing that is read off lines with code. -/
theorem filterMap_filter_code {α : Type} {f : Line → Option α} (hf : ∀ l a, f l = some a → l.hasCode = true) {p : Line → Bool}
    (hp : ∀ l, l.hasCode = true → p l = true) (ls : List Line) : (ls.filter p).filterMap f = ls.filterMap f := by
  rw [List.filterMap_filter]
  refine List.filterMap_congr fun l _ => ?_
  split
  · rfl
  · next hno =>
    cases hl : f l with
    | none => rfl
    | some a => exact absurd (hp l (hf l a hl)) hno

theorem filterMap_filter_definition {p : Line → Bool} (hp : ∀ l, l.hasCode = true → p l = true) (ls : List Line) :
    (ls.filter p).filterMap definition? = ls.filterMap definition? :=
  filterMap_filter_code (fun _ _ => hasCode_of_definition) hp ls

end Fusion

/-! ## The whole module -/

namespace Module

variable {m m' : Module} {n : Nat}

/-- The definitions of the fused module are those that were kept, renamed once more. -/
theorem definitions_of_fuse (h : m.fuse.result = .ok (n, m')) :
    m'.definitions = ((start.readLines m.lines).2.filterMap definition?).map fun d =>
      (d.1, Text.renameIds (start.readLines m.lines).1.renames.apply d.2) := by
  have keeps := keeps_apply (readLines_fates m.lines named_start).1.renames
  obtain ⟨p, code, hlines⟩ := lines_of_fuse h
  rw [definitions, hlines, filterMap_filter_definition code, List.filterMap_map, List.map_filterMap]
  exact List.filterMap_congr fun l _ => Line.definition?_renameOperands keeps l

/-- If fusion settles the definitions of a module, the right-hand sides that it leaves are
    different. -/
theorem nodup_of_fuse (h : m.fuse.result = .ok (n, m')) (settles : m.definitions.Settles m'.definitions.ids) :
    (keysOf m'.lines).Nodup := by
  have left := definitions_of_fuse h
  have ids : m'.definitions.ids = Definitions.ids ((start.readLines m.lines).2.filterMap definition?) := by
    rw [left, Definitions.ids, List.map_map]
    rfl
  rw [ids] at settles
  have settled : Settled m.definitions ((start.readLines m.lines).2.filterMap definition?) (start.readLines m.lines).1 :=
    settled_start.readLines named_start settles
  -- The second reading changes no definition that the first one kept.
  have same : m'.definitions = (start.readLines m.lines).2.filterMap definition? := calc
    m'.definitions = ((start.readLines m.lines).2.filterMap definition?).map id :=
      left.trans (List.map_congr_left fun d hd => Prod.ext rfl (settled.renameIds_eq settles.ident hd))
    _ = _ := List.map_id _
  rw [keysOf, ← definitions, same]
  exact settled.keys

end Module

end SpirvLink
