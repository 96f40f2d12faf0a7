/-
  SpirvLink.Proofs.Fusion.Readings — what fusion reads where each identifier is defined once.

  Nothing need be defined before it is used here. Each right-hand side is read with what stands
  for its operands so far, and what stands for an identifier is the first one that was read with
  the same right-hand side (`Definitions.readings`, `Definitions.standIn`). The first reading
  knows the one and renames by the other (`Keyed`), whatever the lines are. So two identifiers
  become one exactly if they are read with one right-hand side (`standIn_eq_iff`), and a definition
  is left exactly if none before it is read like it (`standIn_eq_self_iff`, `ids_of_fuse`).
-/

import SpirvLink.Proofs.Fusion.Stability

namespace SpirvLink

open Fusion

namespace Fusion

namespace Definitions

variable {read before after ds : Definitions} {d e : Text × Text} {id key rhs first i : Text}

/-! ## First identifiers -/

/-- The first identifier that is read with a right-hand side. -/
def holder (read : Definitions) (key : Text) : Option Text :=
  (read.find? fun d => d.2 = key).map Prod.fst

/-- The first identifier that is read with the right-hand side of this one. -/
def standIn (read : Definitions) (id : Text) : Text :=
  ((read.lookup id).bind read.holder).getD id

/-- One more definition is read: its operands have what stands for them. -/
def push (read : Definitions) (d : Text × Text) : Definitions :=
  read ++ [(d.1, Text.renameIds read.standIn d.2)]

/-- The definitions as they are read, one after the other. -/
def readings (ds : Definitions) : Definitions :=
  ds.foldl push []

/-- The definitions that stand for themselves. -/
def firsts (read : Definitions) : Definitions :=
  read.filter fun d => read.standIn d.1 = d.1

theorem holder_append (before after : Definitions) (key : Text) :
    holder (before ++ after) key = (before.holder key).or (after.holder key) := by
  rw [holder, List.find?_append, Option.map_or]
  rfl

theorem holder_eq_none : read.holder key = none ↔ ∀ d ∈ read, d.2 ≠ key := by
  simp [holder]

theorem mem_of_holder (h : read.holder key = some first) : (first, key) ∈ read := by
  obtain ⟨d, hd, rfl⟩ := Option.map_eq_some_iff.mp h
  obtain rfl : d.2 = key := by simpa using List.find?_some hd
  exact List.mem_of_find?_eq_some hd

theorem exists_holder (h : d ∈ read) : ∃ first, read.holder d.2 = some first := by
  refine Option.ne_none_iff_exists'.mp fun none => ?_
  exact holder_eq_none.mp none d h rfl

theorem lookup_eq_none (h : id ∉ read.ids) : read.lookup id = none :=
  List.lookup_eq_none_iff.mpr fun d hd => by
    simpa using fun he : id = d.1 => h (he ▸ List.mem_map_of_mem hd)

theorem not_mem_ids_before (once : ids (before ++ (id, key) :: after) |>.Nodup) : id ∉ before.ids := by
  rw [ids, List.map_append, List.map_cons] at once
  exact fun hm => (List.nodup_append.mp once).2.2 id hm id (List.mem_cons_self ..) rfl

theorem lookup_of_mem (once : read.ids.Nodup) (h : (id, key) ∈ read) : read.lookup id = some key := by
  obtain ⟨before, after, rfl⟩ := exists_split h
  rw [List.lookup_append, lookup_eq_none (not_mem_ids_before once), Option.none_or, List.lookup_cons, beq_self_eq_true]

theorem standIn_of_not_mem (h : id ∉ read.ids) : read.standIn id = id := by
  rw [standIn, lookup_eq_none h]
  rfl

theorem standIn_of_mem (once : read.ids.Nodup) (h : (id, key) ∈ read) : read.holder key = some (read.standIn id) := by
  obtain ⟨first, hfirst⟩ := exists_holder h
  rw [standIn, lookup_of_mem once h, Option.bind_some]
  dsimp only at hfirst
  rw [hfirst, Option.getD_some]

/-- Two identifiers have one stand-in exactly if they are read with one right-hand side. -/
theorem standIn_eq_iff (once : read.ids.Nodup) (hd : d ∈ read) (he : e ∈ read) :
    read.standIn d.1 = read.standIn e.1 ↔ d.2 = e.2 := by
  have first := standIn_of_mem once hd
  have second := standIn_of_mem once he
  constructor
  · intro same
    rw [← same] at second
    have key := (lookup_of_mem once (mem_of_holder first)).symm.trans (lookup_of_mem once (mem_of_holder second))
    exact Option.some.inj key
  · intro same
    rw [same] at first
    exact Option.some.inj (first.symm.trans second)

/-- An identifier stands for itself exactly if none before it is read with its right-hand side. -/
theorem standIn_eq_self_iff (once : ids (before ++ (id, key) :: after) |>.Nodup) :
    standIn (before ++ (id, key) :: after) id = id ↔ ∀ d ∈ before, d.2 ≠ key := by
  have here := standIn_of_mem once (List.mem_append_right before (List.mem_cons_self ..))
  rw [holder_append] at here
  rw [← holder_eq_none]
  cases hb : before.holder key with
  | none =>
    rw [hb, Option.none_or, holder, List.find?_cons_of_pos (by simp)] at here
    simpa using (Option.some.inj here).symm
  | some first =>
    rw [hb, Option.some_or] at here
    have earlier : first ∈ before.ids := List.mem_map_of_mem (mem_of_holder hb)
    have other : first ≠ id := fun he => not_mem_ids_before once (he ▸ earlier)
    simpa [← Option.some.inj here] using other

/-- What stands for an identifier stands for itself. -/
theorem standIn_standIn (once : read.ids.Nodup) (i : Text) : read.standIn (read.standIn i) = read.standIn i := by
  by_cases hi : i ∈ read.ids
  · obtain ⟨key, hd⟩ := mem_ids.mp hi
    have first := standIn_of_mem once hd
    exact Option.some.inj ((standIn_of_mem once (mem_of_holder first)).symm.trans first)
  · rw [standIn_of_not_mem hi, standIn_of_not_mem hi]

theorem standIn_append (hi : i ∈ before.ids) (after : Definitions) : standIn (before ++ after) i = before.standIn i := by
  obtain ⟨key, hkey⟩ : ∃ key, before.lookup i = some key := by
    refine Option.ne_none_iff_exists'.mp fun none => ?_
    obtain ⟨d, hd, rfl⟩ := List.mem_map.mp hi
    simpa using List.lookup_eq_none_iff.mp none d hd
  obtain ⟨first, hfirst⟩ := exists_holder (mem_of_lookup hkey)
  dsimp only at hfirst
  rw [standIn, standIn, List.lookup_append, hkey, Option.some_or, Option.bind_some, Option.bind_some, holder_append, hfirst,
    Option.some_or]

/-- What stands for an identifier early on still does, or the identifier is read later. -/
theorem standIn_prefix (h : before <+: read) (i : Text) : before.standIn i = i ∨ before.standIn i = read.standIn i := by
  obtain ⟨after, rfl⟩ := h
  by_cases hi : i ∈ before.ids
  · exact Or.inr (standIn_append hi after).symm
  · exact Or.inl (standIn_of_not_mem hi)

/-! ## One more definition -/

theorem holder_concat (read : Definitions) (id key k : Text) :
    holder (read ++ [(id, key)]) k = (read.holder k).or (if key = k then some id else none) := by
  rw [holder_append]
  congr 1
  by_cases hk : key = k <;> simp [holder, hk]

theorem standIn_concat (new : id ∉ read.ids) (key i : Text) :
    standIn (read ++ [(id, key)]) i = if i = id then (read.holder key).getD id else read.standIn i := by
  split
  · next he =>
    rw [he, standIn, List.lookup_append, lookup_eq_none new, Option.none_or, List.lookup_cons, beq_self_eq_true, Option.bind_some,
      holder_concat, if_pos rfl]
    cases read.holder key <;> rfl
  · next hne =>
    by_cases hi : i ∈ read.ids
    · exact standIn_append hi _
    · have absent : i ∉ ids (read ++ [(id, key)]) := fun hm => (mem_ids_concat.mp hm).elim hi hne
      rw [standIn_of_not_mem hi, standIn_of_not_mem absent]

/-- A definition is one of the first exactly if its right-hand side is new. -/
theorem firsts_concat (new : id ∉ read.ids) (key : Text) :
    firsts (read ++ [(id, key)]) = read.firsts ++ if read.holder key = none then [(id, key)] else [] := by
  have others : read.filter (fun d => standIn (read ++ [(id, key)]) d.1 = d.1) = read.firsts := by
    refine List.filter_congr fun d hd => ?_
    rw [standIn_append (List.mem_map_of_mem hd)]
  rw [firsts, List.filter_append, others, List.filter_singleton, standIn_concat new, if_pos rfl]
  congr 1
  cases hk : read.holder key with
  | none => simp
  | some first =>
    have other : first ≠ id := fun he => new (he ▸ List.mem_map_of_mem (mem_of_holder hk))
    simp [other]

theorem ids_append (before after : Definitions) : ids (before ++ after) = before.ids ++ after.ids :=
  List.map_append

theorem ids_push (read : Definitions) (d : Text × Text) : ids (push read d) = read.ids ++ [d.1] :=
  List.map_append

theorem ids_foldl_push : ∀ (ds read : Definitions), ids (ds.foldl push read) = read.ids ++ ds.ids
  | [], read => (List.append_nil read.ids).symm
  | d :: ds, read => by
    rw [List.foldl_cons, ids_foldl_push ds, ids_push, List.append_assoc]
    rfl

theorem prefix_foldl_push : ∀ (ds read : Definitions), read <+: ds.foldl push read
  | [], _ => List.prefix_rfl
  | _ :: ds, _ => (List.prefix_append ..).trans (prefix_foldl_push ds _)

theorem ids_readings (ds : Definitions) : ds.readings.ids = ds.ids :=
  ids_foldl_push ds []

/-- Every definition is read in its place, with what stands for its operands before it. -/
theorem readings_split (before : Definitions) (d : Text × Text) (after : Definitions) : ∃ later, readings (before ++ d :: after) =
    before.readings ++ (d.1, Text.renameIds before.readings.standIn d.2) :: later := by
  obtain ⟨later, hlater⟩ := prefix_foldl_push after (push before.readings d)
  refine ⟨later, ?_⟩
  rw [readings, List.foldl_append, List.foldl_cons]
  show after.foldl push (push before.readings d) = _
  rw [← hlater, push, List.append_assoc, List.singleton_append]

end Definitions

/-! ## The first reading -/

variable {read : Definitions} {s s' : Fusion} {found found' : Option (Text × Text)} {l l' : Line} {ls : List Line}

/-- What the first reading knows after some definitions. -/
structure Keyed (read : Definitions) (s : Fusion) : Prop where
  known : ∀ key, s.known.lookup key = read.holder key
  renames : ∀ id, s.renames.apply id = read.standIn id

theorem keyed_start : Keyed [] start :=
  ⟨fun _ => rfl, fun _ => rfl⟩

/-- One more definition is kept if its right-hand side is new, and deleted if it is not. -/
theorem Keyed.reads (h : Keyed read s) (step : Reads s found s' found') (new : ∀ d ∈ found, d.1 ∉ read.ids) :
    Keyed (found.toList.foldl Definitions.push read) s' ∧
      Definitions.firsts (found.toList.foldl Definitions.push read) = read.firsts ++ found'.toList := by
  have same : s.renames.apply = read.standIn := funext h.renames
  cases step with
  | other => exact ⟨h, (List.append_nil _).symm⟩
  | @deleted id rhs first log known =>
    have new := new _ rfl
    rw [same, h.known] at known
    rw [Option.toList_some, List.foldl_cons, List.foldl_nil, Definitions.push, Definitions.firsts_concat new, known]
    refine ⟨⟨fun key => ?_, fun i => ?_⟩, by simp⟩
    · dsimp only
      rw [h.known, Definitions.holder_concat]
      split
      · next he => rw [← he, known, Option.some_or]
      · rw [Option.or_none]
    · dsimp only
      rw [RenameTable.apply_insert, Definitions.standIn_concat new, known, h.renames, Option.getD_some]
  | @kept id rhs unknown =>
    have new := new _ rfl
    rw [same, h.known] at unknown
    rw [Option.toList_some, List.foldl_cons, List.foldl_nil, Definitions.push, Definitions.firsts_concat new, if_pos unknown,
      same]
    refine ⟨⟨fun key => ?_, fun i => ?_⟩, by simp⟩
    · dsimp only
      rw [List.lookup_cons, Definitions.holder_concat, h.known]
      by_cases he : key = Text.renameIds read.standIn rhs
      · rw [he, beq_self_eq_true, if_pos rfl, unknown, Option.none_or]
      · rw [beq_eq_false_iff_ne.mpr he, if_neg (Ne.symm he), Option.or_none]
    · dsimp only
      rw [Definitions.standIn_concat new, unknown, h.renames, Option.getD_none]
      split
      · next he => rw [he, Definitions.standIn_of_not_mem new]
      · rfl

/-- A line is deleted, or its operands have what stood for them when some definitions were read. -/
def Reread (read : Definitions) (l l' : Line) : Prop :=
  (l' = Line.blank ∧ l.isTypeOrConstant = true) ∨
    ∃ before : Definitions, before <+: read ∧ Text.Keeps before.standIn ∧ l' = l.renameOperands before.standIn

theorem Keyed.readLine (h : Keyed read s) (named : Named s) {later : Definitions} (hlater : read <+: later) (l : Line) :
    Reread later l (s.readLine l).2 := by
  have same : s.renames.apply = read.standIn := funext h.renames
  rcases readLine_cases named l with deleted | renamed | unchanged
  · exact Or.inl deleted
  · exact Or.inr ⟨read, hlater, same ▸ keeps_apply named.renames, same ▸ renamed⟩
  · exact Or.inr ⟨[], List.nil_prefix, fun _ _ => Or.inl rfl, unchanged.trans l.renameOperands_id.symm⟩

theorem Keyed.readLines : ∀ {read : Definitions} {s : Fusion} {ls : List Line}, Keyed read s → Named s →
    (read.ids ++ Definitions.ids (ls.filterMap definition?)).Nodup →
    Keyed ((ls.filterMap definition?).foldl Definitions.push read) (s.readLines ls).1 ∧
      Definitions.firsts ((ls.filterMap definition?).foldl Definitions.push read) =
        read.firsts ++ (s.readLines ls).2.filterMap definition? ∧
      List.Forall₂ (Reread ((ls.filterMap definition?).foldl Definitions.push read)) ls (s.readLines ls).2
  | read, s, [], h, _, _ => ⟨h, (List.append_nil _).symm, .nil⟩
  | read, s, l :: ls, h, named, once => by
    rw [filterMap_cons_definition, List.foldl_append]
    rw [filterMap_cons_definition, Definitions.ids_append, ← List.append_assoc] at once
    have new : ∀ d ∈ definition? l, d.1 ∉ read.ids := by
      intro d hd hm
      rw [Option.mem_def.mp hd] at once
      exact (List.nodup_append.mp (List.nodup_append.mp once).1).2.2 _ hm _ (List.mem_singleton.mpr rfl) rfl
    obtain ⟨first, firsts⟩ := h.reads (readLine_reads named l) new
    rw [← Definitions.ids_foldl_push] at once
    obtain ⟨last, lasts, lines⟩ := readLines first (readLine_named named l) once
    have kept : (s.readLines (l :: ls)).2.filterMap definition? =
        (definition? (s.readLine l).2).toList ++ ((s.readLine l).1.readLines ls).2.filterMap definition? :=
      filterMap_cons_definition (s.readLine l).2 _
    refine ⟨last, ?_, .cons (h.readLine named ?_ l) lines⟩
    · rw [lasts, firsts, kept, List.append_assoc]
    · exact (Definitions.prefix_foldl_push _ read).trans (Definitions.prefix_foldl_push _ _)

end Fusion

/-! ## The whole module -/

namespace Module

variable {m m' : Module} {n : Nat} {l' : Line} {id : Text}

/-- The types and constants as fusion reads them. -/
def readings (m : Module) : Definitions :=
  m.definitions.readings

theorem DefinesOnce.nodup_readings (once : m.DefinesOnce) : m.readings.ids.Nodup := by
  rw [readings, Definitions.ids_readings]
  exact once.nodup_definitions

theorem DefinesOnce.keyed (once : m.DefinesOnce) : Keyed m.readings (start.readLines m.lines).1 ∧
    m.readings.firsts = (start.readLines m.lines).2.filterMap definition? ∧
    List.Forall₂ (Reread m.readings) m.lines (start.readLines m.lines).2 :=
  keyed_start.readLines named_start once.nodup_definitions

/-- Fusion always gives a module. -/
theorem exists_fuse (m : Module) : ∃ n m', m.fuse.result = .ok (n, m') := by
  unfold fuse
  dsimp only
  split <;> exact ⟨_, _, rfl⟩

/-- The types and constants that are left are those that stand for themselves. -/
theorem ids_of_fuse (once : m.DefinesOnce) (h : m.fuse.result = .ok (n, m')) : m'.definitions.ids = m.readings.firsts.ids := by
  rw [definitions_of_fuse h, once.keyed.2.1, Definitions.ids, List.map_map]
  rfl

/-- Every definition that is left comes from the line that defined it, its operands renamed twice. -/
theorem origin_of_fuse (once : m.DefinesOnce) (h : m.fuse.result = .ok (n, m')) (hl' : l' ∈ m'.lines) (hd : l'.defined? = some id) :
    ∃ l ∈ m.lines, l.defined? = some id ∧ ∃ f, Text.Keeps f ∧ Text.Keeps m.readings.standIn ∧
      l' = (l.renameOperands f).renameOperands m.readings.standIn := by
  obtain ⟨keyed, -, reread⟩ := once.keyed
  have renames : (start.readLines m.lines).1.renames.apply = m.readings.standIn := funext keyed.renames
  have keeps : Text.Keeps m.readings.standIn := renames ▸ keeps_apply (readLines_fates m.lines named_start).1.renames
  obtain ⟨p, -, hlines⟩ := lines_of_fuse h
  rw [hlines, renames] at hl'
  obtain ⟨k, hk, rfl⟩ := List.mem_map.mp (List.mem_filter.mp hl').1
  rw [Line.defined?_renameOperands keeps] at hd
  obtain ⟨l, hl, ⟨rfl, -⟩ | ⟨before, -, keeps', rfl⟩⟩ := exists_of_forall₂_right reread k hk
  · cases hd
  · rw [Line.defined?_renameOperands keeps'] at hd
    exact ⟨l, hl, hd, _, keeps', keeps, rfl⟩

end Module

end SpirvLink
