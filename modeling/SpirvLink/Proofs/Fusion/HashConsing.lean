/-
  SpirvLink.Proofs.Fusion.HashConsing — fusion keeps one definition of each expansion.

  In a layered module (`Module.Layered`) types and constants are defined before others use
  them. The first reading then knows, at each line, the first identifier of each expansion
  so far under its right-hand side, and renames each identifier so far to the first of its
  expansion (`Consed`). So a definition is deleted if and only if an earlier one has its
  expansion, and what is left is `Module.shared`.

  Result: `Module.fuse_hash_conses`.
-/

import SpirvLink.Proofs.Fusion.Expansion
import SpirvLink.Proofs.Module

namespace SpirvLink

open Fusion

/-! ## Definitions on lines -/

namespace Line

variable {l : Line} {f : Text → Text} {id rhs : Text}

theorem rhsIds_of_definition (h : definition? l = some (id, rhs)) : l.rhsIds = Text.identifiers rhs := by
  obtain ⟨-, before, after, hs, -, rfl⟩ := definition?_eq_some.mp h
  rw [rhsIds, rhs?, hs, Text.identifiers_unwords, ← Text.identifiers_eq_flatMap_words, Option.map_some, Option.map_some,
    Option.getD_some, Text.identifiers_trim]

/-- Renaming operands renames the right-hand side of a definition. -/
theorem definition?_renameOperands (hf : Text.Keeps f) (l : Line) :
    definition? (l.renameOperands f) = (definition? l).map fun d => (d.1, Text.renameIds f d.2) := by
  have typed := ((renamed_renameOperands (l := l) hf).sameRole hf).typed
  unfold definition?
  rw [typed, defined?, rhs?, defined?, rhs?]
  cases hs : l.halves? with
  | none =>
    rw [halves?_renameOperands_none hf hs]
    cases l.isTypeOrConstant <;> rfl
  | some halves =>
    obtain ⟨before, after⟩ := halves
    rw [halves?_renameOperands hs]
    cases l.isTypeOrConstant with
    | false => rfl
    | true => simp [Text.words_trim, hf.words, Text.renameIds_unwords]

theorem isEmpty_renameOperands (hf : Text.Keeps f) (l : Line) : (l.renameOperands f).isEmpty = l.isEmpty := by
  cases hs : l.halves? with
  | none => rw [Bool.eq_iff_iff, isEmpty_iff, isEmpty_iff, renameOperands_of_none hs, renameIds, hf.words, List.map_eq_nil_iff]
  | some halves =>
    have code : l.hasCode = true := hasCode_of_halves (by rw [hs]; rfl)
    have code' : (l.renameOperands f).hasCode = true := hasCode_of_halves (by rw [halves?_renameOperands hs]; rfl)
    rw [Block.not_isEmpty_of_hasCode code, Block.not_isEmpty_of_hasCode code']

/-- A renaming after another is one renaming. -/
theorem renameOperands_renameOperands (hf : Text.Keeps f) (ident : ∀ id, Text.IsIdent id → Text.IsIdent (f id))
    (g : Text → Text) (l : Line) : (l.renameOperands f).renameOperands g = l.renameOperands (g ∘ f) := by
  have compose : ∀ s, Text.renameIds g (Text.renameIds f s) = Text.renameIds (g ∘ f) s :=
    fun s => Text.renameIds_renameIds g fun id hid => ident id (Text.isIdent_of_mem hid)
  cases hs : l.halves? with
  | none =>
    rw [renameOperands_of_none (halves?_renameOperands_none hf hs), renameOperands_of_none hs, renameOperands_of_none hs]
    exact congrArg Line.mk (compose l.text)
  | some halves =>
    have twice := text_renameOperands (f := g) (halves?_renameOperands (f := f) hs)
    rw [compose, ← text_renameOperands hs] at twice
    exact congrArg Line.mk twice

end Line

/-! ## Layered modules -/

namespace Module

variable {m : Module} {l : Line} {id rhs : Text}

/-- The types and constants of a module. -/
def definitions (m : Module) : Definitions :=
  m.lines.filterMap definition?

/-- A type or constant that the right-hand side of a type or constant uses is defined on an
    earlier line. -/
def UsesEarlier (m : Module) : Prop :=
  ∀ i, (hi : i < m.lines.length) → m.lines[i].isTypeOrConstant = true →
    ∀ id ∈ m.lines[i].rhsIds, id ∈ m.definitions.ids → id ∈ (m.lines.take i).filterMap Line.defined?

instance (m : Module) : Decidable m.UsesEarlier :=
  inferInstanceAs (Decidable (∀ i, (_ : i < m.lines.length) → _))

/-- No line is blank, identifiers are plain and defined once, and types and constants are
    defined before other types and constants use them. -/
structure Layered (m : Module) : Prop where
  noBlanks : ∀ l ∈ m.lines, l.isEmpty = false
  once : m.DefinesOnce
  plain : ∀ l ∈ m.lines, (∀ id ∈ l.ids, Text.IsPlainIdent id) ∧ ∀ id ∈ l.defined?, Text.IsPlainIdent id
  earlier : m.UsesEarlier

instance (m : Module) : Decidable m.Layered :=
  decidable_of_iff ((∀ l ∈ m.lines, l.isEmpty = false) ∧ m.DefinesOnce ∧
      (∀ l ∈ m.lines, (∀ id ∈ l.ids, Text.IsPlainIdent id) ∧ ∀ id ∈ l.defined?, Text.IsPlainIdent id) ∧ m.UsesEarlier)
    ⟨fun h => ⟨h.1, h.2.1, h.2.2.1, h.2.2.2⟩, fun h => ⟨h.noBlanks, h.once, h.plain, h.earlier⟩⟩

/-- The module with one definition of each expansion. -/
def shared (m : Module) : Module :=
  m.mapBlocks m.definitions.share

theorem mem_definitions_ids : id ∈ m.definitions.ids ↔ ∃ l ∈ m.lines, ∃ rhs, definition? l = some (id, rhs) := by
  simp only [Definitions.mem_ids, definitions, List.mem_filterMap]
  exact exists_comm.trans (exists_congr fun l => exists_and_left)

/-- A line is the only one to define what it defines. -/
theorem DefinesOnce.line_eq (h : m.DefinesOnce) {k : Line} (hl : l ∈ m.lines) (hk : k ∈ m.lines)
    (hdl : l.defined? = some id) (hdk : k.defined? = some id) : l = k := by
  by_contra hne
  rw [DefinesOnce, List.Nodup, List.pairwise_filterMap] at h
  have symm : Std.Symm fun l k : Line => ∀ i, l.defined? = some i → ∀ j, k.defined? = some j → i ≠ j :=
    ⟨fun _ _ h i hi j hj he => h j hj i hi he.symm⟩
  exact h.forall hl hk hne id hdl id hdk rfl

theorem DefinesOnce.nodup_definitions (once : m.DefinesOnce) : m.definitions.ids.Nodup := by
  rw [DefinesOnce, List.Nodup, List.pairwise_filterMap] at once
  rw [Definitions.ids, definitions, List.Nodup, List.pairwise_map, List.pairwise_filterMap]
  refine once.imp fun hne => ?_
  rintro ⟨i, rhs⟩ hd ⟨j, rhs'⟩ he
  exact hne i (Line.defined?_of_definition hd) j (Line.defined?_of_definition he)

theorem Layered.layered_definitions (h : m.Layered) : m.definitions.Layered := by
  refine ⟨?_, h.once.nodup_definitions, ?_⟩
  · rintro ⟨id, rhs⟩ hd
    obtain ⟨l, hl, hdef⟩ := List.mem_filterMap.mp hd
    exact ((h.plain l hl).2 id (Line.defined?_of_definition hdef)).1
  · rintro before ⟨id, rhs⟩ after hds i hi hm
    obtain ⟨ls, ks, hlines, rfl, hks⟩ := List.filterMap_eq_append_iff.mp hds
    obtain ⟨passed, l, rest, rfl, hpassed, hdef, -⟩ := List.filterMap_eq_cons_iff.mp hks
    have typed := (Line.definition?_eq_some.mp hdef).1
    rw [← Line.rhsIds_of_definition hdef] at hi
    have split : m.lines = (ls ++ passed) ++ l :: rest := by rw [hlines, List.append_assoc]
    have index : (ls ++ passed).length < m.lines.length := by simp [split]
    have atIndex : m.lines[(ls ++ passed).length] = l := by simp [split]
    have here := h.earlier _ index
    rw [atIndex, split, List.take_left] at here
    obtain ⟨k, hk, hkd⟩ := List.mem_filterMap.mp (here typed i hi hm)
    -- The earlier line is the definition, as no other line defines the identifier.
    obtain ⟨j, hj, rhs', hjd⟩ := mem_definitions_ids.mp hm
    have hkm : k ∈ m.lines := split ▸ List.mem_append_left _ hk
    obtain rfl := h.once.line_eq hkm hj hkd (Line.defined?_of_definition hjd)
    refine Definitions.mem_ids.mpr ⟨rhs', List.mem_filterMap.mpr ⟨k, ?_, hjd⟩⟩
    refine (List.mem_append.mp hk).resolve_right fun hp => ?_
    rw [hpassed k hp] at hjd
    cases hjd

end Module

/-! ## Tables -/

theorem RenameTable.lookup_filter {t : RenameTable} {old id : Text} (h : id ≠ old) :
    (t.filter fun r => r.1 != old).lookup id = t.lookup id := by
  induction t with
  | nil => rfl
  | cons r t ih =>
    by_cases hr : r.1 = old
    · have other : (id == r.1) = false := beq_eq_false_iff_ne.mpr (hr ▸ h)
      rw [List.filter_cons_of_neg (by simpa using hr), List.lookup_cons, other, ih]
    · rw [List.filter_cons_of_pos (by simpa using hr), List.lookup_cons, List.lookup_cons, ih]

theorem RenameTable.apply_insert {t : RenameTable} {old new id : Text} :
    (t.insert old new).apply id = if id = old then new else t.apply id := by
  rw [insert, apply, List.lookup_cons]
  by_cases he : id = old
  · simp [he]
  · rw [if_neg he, beq_eq_false_iff_ne.mpr he, lookup_filter he, apply]

theorem RenameTable.length_insert {t : RenameTable} {old new : Text} (h : ∀ r ∈ t, r.1 ≠ old) :
    (t.insert old new).length = t.length + 1 := by
  have same : (t.filter fun r => r.1 != old) = t :=
    List.filter_eq_self.mpr fun r hr => bne_iff_ne.mpr (h r hr)
  rw [insert, same, List.length_cons]

/-! ## The first reading -/

namespace Fusion

variable {ds done rest : Definitions} {s : Fusion} {l l' : Line} {f : Text → Text} {id rhs : Text}

/-- What is known after some of the definitions: what stands for each of their identifiers,
    and each identifier that stands for itself, under its right-hand side. -/
structure Consed (ds done : Definitions) (s : Fusion) : Prop where
  renames : ∀ id, s.renames.apply id = if id ∈ done.ids then ds.canonical id else id
  known : ∀ key first, s.known.lookup key = some first ↔
    ∃ rhs, (first, rhs) ∈ done ∧ ds.canonical first = first ∧ Text.renameIds ds.canonical rhs = key
  fresh : ∀ r ∈ s.renames, r.1 ∈ done.ids
  count : s.renames.length = done.countP fun d => ds.isDuplicate d.1

theorem consed_start (ds : Definitions) : Consed ds [] start := by
  refine ⟨fun id => rfl, fun key first => ?_, ?_, rfl⟩
  · simp [start]
  · simp [start]

/-- A renaming that puts what stands for an identifier in the place of some identifiers. -/
def Partly (ds : Definitions) (f : Text → Text) : Prop :=
  ∀ id, f id = ds.canonical id ∨ f id = id

theorem Consed.partly (h : Consed ds done s) : Partly ds s.renames.apply := by
  intro id
  rw [h.renames]
  split
  · exact Or.inl rfl
  · exact Or.inr rfl

/-- The right-hand side of the next definition has what stands for each of its operands. -/
theorem Consed.renameIds_eq (h : Consed ds done s) (layered : ds.Layered) (hds : ds = done ++ (id, rhs) :: rest) :
    Text.renameIds s.renames.apply rhs = Text.renameIds ds.canonical rhs := by
  refine Text.renameIds_congr fun i hi => ?_
  rw [h.renames]
  split
  · rfl
  · next hm => exact (layered.canonical_of_not_mem fun hi' => hm (layered.earlier _ _ _ hds i hi hi')).symm

/-- The key of the next definition is known if and only if an earlier one has its expansion. -/
theorem Consed.lookup_key (h : Consed ds done s) (layered : ds.Layered) (hds : ds = done ++ (id, rhs) :: rest) :
    s.known.lookup (Text.renameIds ds.canonical rhs) = if ds.isDuplicate id then some (ds.canonical id) else none := by
  have here : (id, rhs) ∈ ds := by simp [hds]
  have before : ∀ d ∈ done, d ∈ ds := fun d hd => hds ▸ List.mem_append_left _ hd
  have duplicate := layered.isDuplicate_iff (Definitions.mem_ids.mpr ⟨rhs, here⟩)
  rcases Definitions.canonical_split hds with ⟨heq, none_same⟩ | ⟨hm, hsame⟩
  · rw [if_neg fun hd => duplicate.mp hd heq, Option.eq_none_iff_forall_ne_some]
    intro first hfirst
    obtain ⟨rhs', hd, -, hkey⟩ := (h.known _ _).mp hfirst
    exact none_same first (Definitions.mem_ids.mpr ⟨rhs', hd⟩) ((layered.key_eq_iff (before _ hd) here).mp hkey)
  · have hne : ds.canonical id ≠ id := fun heq => (layered.not_mem_split hds).1 (heq ▸ hm)
    rw [if_pos (duplicate.mpr hne)]
    obtain ⟨rhs', hd⟩ := Definitions.mem_ids.mp hm
    exact (h.known _ _).mpr
      ⟨rhs', hd, Definitions.canonical_canonical ds id, (layered.key_eq_iff (before _ hd) here).mpr hsame⟩

/-- A duplicate is renamed to what stands for it. -/
theorem Consed.insert (h : Consed ds done s) (layered : ds.Layered) (hds : ds = done ++ (id, rhs) :: rest)
    (duplicate : ds.isDuplicate id = true) (log : List Event) :
    Consed ds (done ++ [(id, rhs)]) ⟨s.known, s.renames.insert id (ds.canonical id), log⟩ := by
  have here : id ∈ ds.ids := Definitions.mem_ids.mpr ⟨rhs, by simp [hds]⟩
  have hne := (layered.isDuplicate_iff here).mp duplicate
  have unused : ∀ r ∈ s.renames, r.1 ≠ id := by
    intro r hr he
    exact (layered.not_mem_split hds).1 (he ▸ h.fresh r hr)
  refine ⟨fun i => ?_, fun key first => ?_, fun r hr => ?_, ?_⟩
  · rw [RenameTable.apply_insert, h.renames]
    by_cases hi : i = id
    · simp [Definitions.mem_ids_concat, hi]
    · simp [Definitions.mem_ids_concat, hi]
  · rw [h.known]
    constructor
    · rintro ⟨rhs', hd, hfirst, hkey⟩
      exact ⟨rhs', List.mem_append_left _ hd, hfirst, hkey⟩
    · rintro ⟨rhs', hd, hfirst, hkey⟩
      rcases List.mem_append.mp hd with hd | hd
      · exact ⟨rhs', hd, hfirst, hkey⟩
      · obtain ⟨rfl, rfl⟩ := Prod.mk.inj (List.mem_singleton.mp hd)
        exact absurd hfirst hne
  · rw [Definitions.mem_ids_append]
    rcases List.mem_cons.mp hr with rfl | hr
    · exact Or.inr (List.mem_singleton_self _)
    · exact Or.inl (h.fresh r (List.mem_filter.mp hr).1)
  · rw [RenameTable.length_insert unused, h.count, List.countP_append]
    simp [duplicate]

/-- A definition of a new expansion is known from then on. -/
theorem Consed.push (h : Consed ds done s) (layered : ds.Layered) (hds : ds = done ++ (id, rhs) :: rest)
    (new : ds.isDuplicate id = false) :
    Consed ds (done ++ [(id, rhs)]) ⟨(Text.renameIds ds.canonical rhs, id) :: s.known, s.renames, s.log⟩ := by
  have here : id ∈ ds.ids := Definitions.mem_ids.mpr ⟨rhs, by simp [hds]⟩
  have stands : ds.canonical id = id := by
    by_contra hne
    rw [(layered.isDuplicate_iff here).mpr hne] at new
    cases new
  have unknown : s.known.lookup (Text.renameIds ds.canonical rhs) = none := by
    rw [h.lookup_key layered hds, new]
    rfl
  refine ⟨fun i => ?_, fun key first => ?_, fun r hr => ?_, ?_⟩
  · rw [h.renames]
    by_cases hi : i = id
    · simp [Definitions.mem_ids_concat, hi, stands]
    · simp [Definitions.mem_ids_concat, hi]
  · by_cases hkey : key = Text.renameIds ds.canonical rhs
    · rw [List.lookup_cons, hkey, beq_self_eq_true]
      constructor
      · intro he
        obtain rfl := Option.some.inj he
        exact ⟨rhs, by simp, stands, rfl⟩
      · rintro ⟨rhs', hd, hfirst, hsame⟩
        rcases List.mem_append.mp hd with hd | hd
        · rw [(h.known _ first).mpr ⟨rhs', hd, hfirst, hsame⟩] at unknown
          cases unknown
        · obtain ⟨rfl, rfl⟩ := Prod.mk.inj (List.mem_singleton.mp hd)
          rfl
    · rw [List.lookup_cons, beq_eq_false_iff_ne.mpr hkey]
      refine (h.known key first).trans ⟨?_, ?_⟩
      · rintro ⟨rhs', hd, hfirst, hsame⟩
        exact ⟨rhs', List.mem_append_left _ hd, hfirst, hsame⟩
      · rintro ⟨rhs', hd, hfirst, hsame⟩
        rcases List.mem_append.mp hd with hd | hd
        · exact ⟨rhs', hd, hfirst, hsame⟩
        · obtain ⟨rfl, rfl⟩ := Prod.mk.inj (List.mem_singleton.mp hd)
          exact absurd hsame.symm hkey
  · exact Definitions.mem_ids_append.mpr (Or.inl (h.fresh r hr))
  · rw [h.count, List.countP_append]
    simp [new]

/-! ## Reading lines -/

/-- What the first reading makes of a line: nothing, if an earlier definition has its
    expansion, and otherwise the line with some operands renamed. -/
def Outcome (ds : Definitions) (l l' : Line) : Prop :=
  if ds.deletes l then l' = Line.blank
  else ∃ f, Text.Keeps f ∧ Partly ds f ∧ l' = l.renameOperands f

theorem Consed.readLine (h : Consed ds done s) (layered : ds.Layered) (named : Named s)
    (hds : done ++ (definition? l).toList <+: ds) :
    Consed ds (done ++ (definition? l).toList) (s.readLine l).1 ∧ Outcome ds l (s.readLine l).2 := by
  have keeps := keeps_apply named.renames
  cases hl : definition? l with
  | none =>
    have untyped : definition? (l.renameOperands s.renames.apply) = none := by
      rw [Line.definition?_renameOperands keeps, hl]
      rfl
    rw [Option.toList_none, List.append_nil, Outcome, Definitions.deletes, hl, Option.any_none, if_neg Bool.false_ne_true, Fusion.readLine]
    split
    · simp only [untyped]
      exact ⟨h, _, keeps, h.partly, rfl⟩
    · exact ⟨h, fun id => id, fun _ _ => Or.inl rfl, fun _ => Or.inr rfl, l.renameOperands_id.symm⟩
  | some d =>
    obtain ⟨id, rhs⟩ := d
    rw [hl, Option.toList_some] at hds
    obtain ⟨rest, hds⟩ := hds
    rw [List.append_assoc, List.singleton_append] at hds
    have key : definition? (l.renameOperands s.renames.apply) = some (id, Text.renameIds ds.canonical rhs) := by
      rw [Line.definition?_renameOperands keeps, hl, Option.map_some, h.renameIds_eq layered hds.symm]
    rw [Option.toList_some, Outcome, Definitions.deletes, hl, Option.any_some, Fusion.readLine,
      if_pos (hasCode_of_definition hl)]
    simp only [key, h.lookup_key layered hds.symm]
    cases hdup : ds.isDuplicate id with
    | true => exact ⟨h.insert layered hds.symm hdup _, rfl⟩
    | false => exact ⟨h.push layered hds.symm hdup, _, keeps, h.partly, rfl⟩

theorem Consed.readLines (layered : ds.Layered) : ∀ {done : Definitions} {s : Fusion} {ls : List Line},
    Consed ds done s → Named s → done ++ ls.filterMap definition? <+: ds →
    Consed ds (done ++ ls.filterMap definition?) (s.readLines ls).1 ∧ List.Forall₂ (Outcome ds) ls (s.readLines ls).2
  | done, s, [], h, _, _ => ⟨by rwa [List.filterMap_nil, List.append_nil], .nil⟩
  | done, s, l :: ls, h, named, hds => by
    rw [filterMap_cons_definition, ← List.append_assoc] at hds ⊢
    have first := h.readLine layered named ((List.prefix_append _ _).trans hds)
    have later := readLines layered first.1 (readLine_named named l) hds
    exact ⟨later.1, .cons first.2 later.2⟩

/-- The outcomes of the lines of a block. -/
structure BlockOutcome (ds : Definitions) (b b' : Block) : Prop where
  kind : b'.kind = b.kind
  lines : List.Forall₂ (Outcome ds) b.lines b'.lines

theorem Consed.readBlocks (layered : ds.Layered) : ∀ {done : Definitions} {s : Fusion} {bs : List Block},
    Consed ds done s → Named s → ds = done ++ (bs.flatMap Block.lines).filterMap definition? →
    Consed ds ds (s.readBlocks bs).1 ∧ List.Forall₂ (BlockOutcome ds) bs (s.readBlocks bs).2
  | done, s, [], h, _, hds => by
    rw [List.flatMap_nil, List.filterMap_nil, List.append_nil] at hds
    exact ⟨hds ▸ h, .nil⟩
  | done, s, b :: bs, h, named, hds => by
    rw [List.flatMap_cons, List.filterMap_append, ← List.append_assoc] at hds
    have first := Consed.readLines layered h named ⟨_, hds.symm⟩
    have later := readBlocks layered first.1 (readLines_fates b.lines named).1 hds
    exact ⟨later.1, .cons ⟨rfl, first.2⟩ later.2⟩

/-! ## The second reading -/

theorem keeps_canonical (named : ∀ d ∈ ds, Text.IsName d.1) : Text.Keeps ds.canonical := by
  intro id _
  rcases Definitions.canonical_cases ds id with ⟨hm, -⟩ | ⟨heq, -⟩
  · obtain ⟨rhs, hd⟩ := Definitions.mem_ids.mp hm
    exact Or.inr (named _ hd)
  · exact Or.inl heq

/-- A renaming of all operands makes up for those not renamed yet. -/
theorem Partly.renameOperands (h : Partly ds f) (keeps : Text.Keeps f) (layered : ds.Layered) (l : Line) :
    (l.renameOperands f).renameOperands ds.canonical = l.renameOperands ds.canonical := by
  have ident : ∀ id, Text.IsIdent id → Text.IsIdent (f id) := by
    intro id hid
    rcases h id with he | he
    · rw [he]
      exact layered.isIdent_canonical hid
    · rwa [he]
  have same : ds.canonical ∘ f = ds.canonical := by
    funext id
    rcases h id with he | he
    · rw [Function.comp_apply, he, Definitions.canonical_canonical]
    · rw [Function.comp_apply, he]
  rw [Line.renameOperands_renameOperands keeps ident, same]

theorem reread_lines (layered : ds.Layered) (keeps : Text.Keeps ds.canonical) {ls ls' : List Line}
    (h : List.Forall₂ (Outcome ds) ls ls') (noBlanks : ∀ l ∈ ls, l.isEmpty = false) :
    (ls'.map (Line.renameOperands ds.canonical)).filter (fun l => !l.isEmpty) =
      (ls.filter fun l => !ds.deletes l).map (Line.renameOperands ds.canonical) := by
  have sameEmpty := fun l => Line.isEmpty_renameOperands keeps l
  induction h with
  | nil => rfl
  | @cons l l' ls ls' outcome _ ih =>
    obtain ⟨hl, hls⟩ := List.forall_mem_cons.mp noBlanks
    rw [List.map_cons]
    unfold Outcome at outcome
    split at outcome
    · next hd =>
      have blank : (l'.renameOperands ds.canonical).isEmpty = true := by
        rw [sameEmpty, outcome]
        rfl
      rw [List.filter_cons_of_neg (by simp [blank]), List.filter_cons_of_neg (by simp [hd]), ih hls]
    · next hd =>
      obtain ⟨f, hf, partly, rfl⟩ := outcome
      rw [partly.renameOperands hf layered, List.filter_cons_of_pos (by simp [sameEmpty, hl]),
        List.filter_cons_of_pos (by simp [hd]), List.map_cons, ih hls]

theorem reread_blocks (layered : ds.Layered) (keeps : Text.Keeps ds.canonical) {bs bs' : List Block}
    (h : List.Forall₂ (BlockOutcome ds) bs bs') (noBlanks : ∀ b ∈ bs, ∀ l ∈ b.lines, l.isEmpty = false) :
    bs'.map (Block.rereading ds.canonical) = bs.map ds.share := by
  induction h with
  | nil => rfl
  | @cons b b' bs bs' outcome _ ih =>
    obtain ⟨hb, hbs⟩ := List.forall_mem_cons.mp noBlanks
    have lines := reread_lines layered keeps outcome.lines hb
    rw [List.map_cons, List.map_cons, ih hbs, Block.rereading, Block.mapLines, Block.dropEmptyLines, lines, outcome.kind,
      Definitions.share]

/-- Where each identifier stands for itself, the first reading changes nothing. -/
theorem unread_lines (stands : ∀ id, ds.canonical id = id) {ls ls' : List Line} (h : List.Forall₂ (Outcome ds) ls ls')
    (kept : ∀ l ∈ ls, ds.deletes l = false) : ls' = ls := by
  induction h with
  | nil => rfl
  | @cons l l' ls ls' outcome _ ih =>
    obtain ⟨hl, hls⟩ := List.forall_mem_cons.mp kept
    rw [Outcome, hl, if_neg Bool.false_ne_true] at outcome
    obtain ⟨f, -, partly, rfl⟩ := outcome
    have same : f = fun id => id := by
      funext id
      rcases partly id with he | he
      · rw [he, stands]
      · exact he
    rw [same, Line.renameOperands_id, ih hls]

theorem unread_blocks (stands : ∀ id, ds.canonical id = id) {bs bs' : List Block}
    (h : List.Forall₂ (BlockOutcome ds) bs bs') (kept : ∀ b ∈ bs, ∀ l ∈ b.lines, ds.deletes l = false) :
    bs' = bs.map ds.share := by
  have unchanged : Line.renameOperands ds.canonical = id := by
    rw [show ds.canonical = fun id => id from funext stands]
    exact funext Line.renameOperands_id
  induction h with
  | nil => rfl
  | @cons b b' bs bs' outcome _ ih =>
    obtain ⟨hb, hbs⟩ := List.forall_mem_cons.mp kept
    have all : (b.lines.filter fun l => !ds.deletes l) = b.lines :=
      List.filter_eq_self.mpr fun l hl => by simp [hb l hl]
    have lines := unread_lines stands outcome.lines hb
    rw [List.map_cons, ih hbs, Definitions.share, all, unchanged, List.map_id, ← lines, ← outcome.kind]

end Fusion

namespace Module

variable {m : Module} {l : Line} {id : Text}

theorem lines_shared (m : Module) : m.shared.lines =
    (m.lines.filter fun l => !m.definitions.deletes l).map (Line.renameOperands m.definitions.canonical) := by
  rw [shared, mapBlocks, lines, List.flatMap_map, lines, List.filter_flatMap, List.map_flatMap]
  rfl

theorem keeps_canonical (m : Module) : Text.Keeps m.definitions.canonical := by
  refine Fusion.keeps_canonical fun d hd => ?_
  obtain ⟨l, -, hl⟩ := List.mem_filterMap.mp hd
  exact isName_of_definition hl

theorem countP_definitions (m : Module) :
    (m.definitions.countP fun d => m.definitions.isDuplicate d.1) = m.lines.countP m.definitions.deletes := by
  rw [definitions, List.countP_filterMap]
  refine List.countP_congr fun l _ => ?_
  unfold Definitions.deletes
  cases definition? l with
  | none => rfl
  | some d => rfl

/-- An identifier has another in its place if and only if a deleted line defines it. -/
theorem Layered.canonical_ne_iff (h : m.Layered) : m.definitions.canonical id ≠ id ↔
    ∃ l ∈ m.lines, m.definitions.deletes l = true ∧ l.defined? = some id := by
  have layered := h.layered_definitions
  constructor
  · intro hne
    have hm : id ∈ m.definitions.ids := by
      by_contra hm
      exact hne (layered.canonical_of_not_mem hm)
    obtain ⟨l, hl, rhs, hd⟩ := mem_definitions_ids.mp hm
    refine ⟨l, hl, ?_, Line.defined?_of_definition hd⟩
    rw [Definitions.deletes, hd]
    exact (layered.isDuplicate_iff hm).mpr hne
  · rintro ⟨l, hl, hdel, hdef⟩
    obtain ⟨⟨i, rhs⟩, hd, hdup⟩ := (Option.any_eq_true _ _).mp hdel
    obtain rfl : i = id := Option.some.inj ((Line.defined?_of_definition hd).symm.trans hdef)
    exact (layered.isDuplicate_iff (mem_definitions_ids.mpr ⟨l, hl, rhs, hd⟩)).mp hdup

/-- Fusion deletes the definitions whose expansion an earlier one has, renames what they
    defined, and counts them. -/
theorem Layered.fuse_eq (h : m.Layered) : m.fuse.result = .ok (m.lines.countP m.definitions.deletes, m.shared) := by
  have layered := h.layered_definitions
  have nothing : m.definitions = [] ++ (m.blocks.flatMap Block.lines).filterMap definition? := rfl
  obtain ⟨consed, outcomes⟩ := Consed.readBlocks layered (consed_start m.definitions) named_start nothing
  have count := consed.count.trans (countP_definitions m)
  have blank : ∀ b ∈ m.blocks, ∀ l ∈ b.lines, l.isEmpty = false :=
    fun b hb l hl => h.noBlanks l (List.mem_flatMap.mpr ⟨b, hb, hl⟩)
  unfold Module.fuse
  dsimp only
  split
  · next empty =>
    rw [List.isEmpty_iff.mp empty, List.length_nil] at count
    have kept : ∀ l ∈ m.lines, m.definitions.deletes l = false := by
      intro l hl
      exact Bool.eq_false_iff.mpr (List.countP_eq_zero.mp count.symm l hl)
    have stands : ∀ id, m.definitions.canonical id = id := by
      intro id
      by_contra hne
      obtain ⟨l, hl, hdel, -⟩ := h.canonical_ne_iff.mp hne
      rw [kept l hl] at hdel
      cases hdel
    have blocks := unread_blocks stands outcomes fun b hb l hl => kept l (List.mem_flatMap.mpr ⟨b, hb, hl⟩)
    rw [← count, blocks]
    rfl
  · have renames : (start.readBlocks m.blocks).1.renames.apply = m.definitions.canonical := by
      funext id
      rw [consed.renames]
      split
      · rfl
      · next hm => exact (layered.canonical_of_not_mem hm).symm
    have blocks := reread_blocks layered m.keeps_canonical outcomes blank
    rw [renames, count, mapLines, mapBlocks, mapBlocks, List.map_map]
    exact congrArg (fun bs => Except.ok (_, Module.mk bs)) blocks

/-! ## What is left -/

/-- No identifier of a deleted line is left. -/
theorem Layered.not_mem_ids_shared (h : m.Layered) (hne : m.definitions.canonical id ≠ id) :
    ∀ k ∈ m.shared.lines, id ∉ k.ids := by
  have keeps := m.keeps_canonical
  have ident : ∀ i, Text.IsIdent i → Text.IsIdent (m.definitions.canonical i) :=
    fun i hi => h.layered_definitions.isIdent_canonical hi
  have renamed : ∀ s, id ∉ Text.identifiers (Text.renameIds m.definitions.canonical s) := by
    intro s hid
    rw [Text.identifiers_renameIds fun i hi => ident i (Text.isIdent_of_mem hi)] at hid
    obtain ⟨i, -, rfl⟩ := List.mem_map.mp hid
    exact hne (Definitions.canonical_canonical _ i)
  obtain ⟨l, hl, hdel, hdef⟩ := h.canonical_ne_iff.mp hne
  intro k hk hid
  rw [lines_shared] at hk
  obtain ⟨j, hj, rfl⟩ := List.mem_map.mp hk
  obtain ⟨hj, hkept⟩ := List.mem_filter.mp hj
  cases hs : j.halves? with
  | none =>
    rw [Line.renameOperands_of_none hs] at hid
    exact renamed j.text hid
  | some halves =>
    obtain ⟨before, after⟩ := halves
    have defined : j.defined? = some (Text.trim before) := by
      rw [Line.defined?, hs]
      rfl
    have plain := (h.plain j hj).2 _ defined
    have equalsFree : j.EqualsFree := fun i hi => ((h.plain j hj).1 i hi).2.1
    rw [(equalsFree.renameOperands keeps).ids_eq (Line.halves?_renameOperands hs)] at hid
    rcases List.mem_append.mp hid with hid | hid
    · rw [Text.identifiers_eq_flatMap_words, Line.EqualsFree.words_before hs defined, List.flatMap_singleton,
        Text.identifiers_of_isIdent plain.1] at hid
      obtain rfl := List.mem_singleton.mp hid
      obtain rfl := h.once.line_eq hj hl defined hdef
      simp [hdel] at hkept
    · exact renamed after hid

end Module

/-! ## Fusing again -/

namespace Fusion

variable {s : Fusion} {l : Line} {keys : List Text}

/-- The right-hand sides of the types and constants among the lines. -/
def keysOf (ls : List Line) : List Text :=
  (ls.filterMap definition?).map Prod.snd

/-- Nothing is renamed, and the right-hand sides known and to come are all different. -/
structure Fresh (s : Fusion) (keys : List Text) : Prop where
  renames : s.renames = []
  nodup : (s.known.map Prod.fst ++ keys).Nodup

theorem Fresh.readLine (h : Fresh s (keysOf [l] ++ keys)) : (s.readLine l).2 = l ∧ Fresh (s.readLine l).1 keys := by
  obtain ⟨renames, nodup⟩ := h
  have same : l.renameOperands s.renames.apply = l := by
    rw [renames]
    exact l.renameOperands_id
  rcases hr : s.readLine l with ⟨s', l'⟩
  have reads := readLine_eq_iff.mp hr
  cases hd : definition? l with
  | none =>
    have nokey : keysOf [l] = [] := by simp [keysOf, hd]
    rw [nokey, List.nil_append] at nodup
    cases reads with
    | bare _ => exact ⟨rfl, renames, nodup⟩
    | other _ _ => exact ⟨same, renames, nodup⟩
    | deleted _ hd' _ => cases hd.symm.trans (same ▸ hd')
    | kept _ hd' _ => cases hd.symm.trans (same ▸ hd')
  | some d =>
    obtain ⟨id, key⟩ := d
    have here : keysOf [l] = [key] := by simp [keysOf, hd]
    rw [here, List.singleton_append] at nodup
    cases reads with
    | bare hcode => cases hcode.symm.trans (hasCode_of_definition hd)
    | other _ hd' => cases hd.symm.trans (same ▸ hd')
    | deleted _ hd' hk =>
      cases hd.symm.trans (same ▸ hd')
      have hm : key ∈ s.known.map Prod.fst := List.mem_map.mpr ⟨_, mem_of_lookup hk, rfl⟩
      exact absurd rfl ((List.nodup_append.mp nodup).2.2 key hm key (List.mem_cons_self ..))
    | kept _ hd' _ =>
      cases hd.symm.trans (same ▸ hd')
      exact ⟨same, renames, List.nodup_middle.mp nodup⟩

theorem Fresh.readLines : ∀ {s : Fusion} {ls : List Line}, Fresh s (keysOf ls ++ keys) →
    (s.readLines ls).2 = ls ∧ Fresh (s.readLines ls).1 keys
  | _, [], h => ⟨rfl, h⟩
  | s, l :: ls, h => by
    have split : keysOf (l :: ls) = keysOf [l] ++ keysOf ls := by
      rw [keysOf, keysOf, keysOf, ← List.map_append, ← List.filterMap_append, List.singleton_append]
    rw [split, List.append_assoc] at h
    obtain ⟨first, h⟩ := h.readLine
    obtain ⟨later, h⟩ := h.readLines
    refine ⟨?_, h⟩
    show (s.readLine l).2 :: ((s.readLine l).1.readLines ls).2 = l :: ls
    rw [first, later]

theorem Fresh.readBlocks : ∀ {s : Fusion} {bs : List Block}, Fresh s (keysOf (bs.flatMap Block.lines)) →
    (s.readBlocks bs).2 = bs ∧ Fresh (s.readBlocks bs).1 []
  | _, [], h => ⟨rfl, h⟩
  | s, b :: bs, h => by
    rw [List.flatMap_cons, keysOf, List.filterMap_append, List.map_append] at h
    obtain ⟨first, h⟩ := Fresh.readLines h
    obtain ⟨later, h⟩ := h.readBlocks
    refine ⟨?_, h⟩
    show (⟨b.kind, (s.readLines b.lines).2⟩ :: ((s.readLines b.lines).1.readBlocks bs).2 : List Block) = b :: bs
    rw [first, later]

end Fusion

namespace Module

variable {m : Module}

/-- Fusion changes nothing where all right-hand sides are different. -/
theorem fuse_eq_self (h : (keysOf m.lines).Nodup) : m.fuse.result = .ok (0, m) := by
  have fresh : Fresh start (keysOf (m.blocks.flatMap Block.lines)) := ⟨rfl, h⟩
  obtain ⟨same, renames, -⟩ := fresh.readBlocks
  unfold Module.fuse
  dsimp only
  rw [same, renames]
  rfl

/-- One line is left for each expansion, so the right-hand sides left are different. -/
theorem Layered.nodup_keysOf_shared (h : m.Layered) : (keysOf m.shared.lines).Nodup := by
  have layered := h.layered_definitions
  have once := h.once
  rw [DefinesOnce, List.Nodup, List.pairwise_filterMap] at once
  rw [keysOf, lines_shared, List.filterMap_map, List.Nodup, List.pairwise_map, List.pairwise_filterMap]
  refine (once.filter _).imp_of_mem fun {l k} hl hk hne => ?_
  -- Both are kept, so each stands for itself; with one right-hand side they would be one.
  have stands : ∀ {l : Line} {d : Text × Text}, l ∈ m.lines.filter (fun l => !m.definitions.deletes l) →
      definition? l = some d → d ∈ m.definitions ∧ m.definitions.canonical d.1 = d.1 := by
    intro l d hl hd
    obtain ⟨hl, hkept⟩ := List.mem_filter.mp hl
    refine ⟨List.mem_filterMap.mpr ⟨l, hl, hd⟩, ?_⟩
    by_contra hcanonical
    have hdup := (layered.isDuplicate_iff (mem_definitions_ids.mpr ⟨l, hl, d.2, hd⟩)).mpr hcanonical
    simp [Definitions.deletes, hd, hdup] at hkept
  intro d hd e he same
  rw [Function.comp_apply, Line.definition?_renameOperands m.keeps_canonical] at hd he
  obtain ⟨⟨i, rhs⟩, hi, rfl⟩ := Option.map_eq_some_iff.mp hd
  obtain ⟨⟨j, rhs'⟩, hj, rfl⟩ := Option.map_eq_some_iff.mp he
  obtain ⟨himem, hiself⟩ := stands hl hi
  obtain ⟨hjmem, hjself⟩ := stands hk hj
  have expansion := Definitions.canonical_eq_iff.mpr ((layered.key_eq_iff himem hjmem).mp same)
  rw [hiself, hjself] at expansion
  exact hne i (Line.defined?_of_definition hi) j (Line.defined?_of_definition hj) expansion

/-- Fusion is hash-consing. In a layered module it deletes a definition if and only if an
    earlier one has its expansion (`Fusion.Definitions.deletes`); it leaves the other lines
    in order, with the first identifier of each expansion in the place of the others, which
    are the identifiers that deleted lines defined; it leaves none of these anywhere; it
    counts the deleted lines; and fusing again finds nothing. -/
theorem fuse_hash_conses (m : Module) (h : m.Layered) :
    m.fuse.result = .ok (m.lines.countP m.definitions.deletes, m.shared) ∧
      (∀ id, m.definitions.canonical id ≠ id ↔
        ∃ l ∈ m.lines, m.definitions.deletes l = true ∧ l.defined? = some id) ∧
      (∀ id, m.definitions.canonical id ≠ id → ∀ l ∈ m.shared.lines, id ∉ l.ids) ∧
      m.shared.fuse.result = .ok (0, m.shared) :=
  ⟨h.fuse_eq, fun _ => h.canonical_ne_iff, fun _ hne => h.not_mem_ids_shared hne, fuse_eq_self h.nodup_keysOf_shared⟩

/-- Two integers, two pointers to them and two constants, each spaced differently, and uses of
    them before and after. -/
def cascade : Module :=
  ⟨[⟨.decorations, [⟨"OpDecorate %p2 Restrict".toList⟩]⟩,
    ⟨.definitions, [⟨"; numbers".toList⟩, ⟨"%u = OpTypeInt 32 0".toList⟩, ⟨"%p = OpTypePointer Uniform %u".toList⟩,
      ⟨"%u2 = OpTypeInt 32  0".toList⟩, ⟨"%p2 =  OpTypePointer Uniform %u2".toList⟩, ⟨"%c2 = OpConstant %u2 1".toList⟩,
      ⟨"%c = OpConstant %u 1".toList⟩]⟩,
    ⟨.globalVariables, [⟨"%v = OpVariable %p2 Uniform".toList⟩]⟩]⟩

/-- The second integer is deleted, and with it the pointer and the constant that differ in nothing
    else. -/
theorem fuse_hash_conses_cascade : cascade.Layered ∧ cascade.fuse.result = .ok (3, cascade.shared) ∧
    (∀ l ∈ cascade.shared.lines, "%u2".toList ∉ l.ids) ∧ cascade.shared.fuse.result = .ok (0, cascade.shared) ∧
    cascade.shared.lines.map Line.text = ["OpDecorate %p Restrict".toList, "; numbers".toList,
      "%u = OpTypeInt 32 0".toList, "%p = OpTypePointer Uniform %u".toList, "%c2 = OpConstant %u 1".toList,
      "%v = OpVariable %p Uniform".toList] := by
  have layered : cascade.Layered := by decide +kernel
  have count : cascade.lines.countP cascade.definitions.deletes = 3 := by decide +kernel
  have renamed : cascade.definitions.canonical "%u2".toList ≠ "%u2".toList := by decide +kernel
  obtain ⟨fused, -, gone, again⟩ := fuse_hash_conses cascade layered
  exact ⟨layered, count ▸ fused, gone _ renamed, again, by decide +kernel⟩

end Module

end SpirvLink
