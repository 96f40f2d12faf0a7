/-
  SpirvLink.Proofs.Fusion.SpecConstants — what becomes of specialization constants.

  Fusion knows a definition by its right-hand side alone. The number by which a constant is
  specialized stands in a decoration, which nothing reads. So two specialization constants are
  fused exactly if they are read with one right-hand side, whatever their numbers are, and then
  both decorations name the first one (`fuse_specConstants`). Two that have one type and one
  default become one (`fuse_specConstants_merged`).
-/

import SpirvLink.Proofs.Fusion.Readings

namespace SpirvLink

open Text Fusion

/-! ## Decorations and literals -/

namespace Line

variable {l : Line} {f : Text → Text} {id number : Text}

/-- The operands that hold no identifier. -/
def literals (l : Line) : List Text :=
  l.operands.filter fun w => sigil ∉ w

/-- The identifier that the line decorates, and the number by which it is specialized. -/
def specId? (l : Line) : Option (Text × Text) :=
  match l.operands with
  | [id, mark, number] =>
    if l.opcode? = some "OpDecorate".toList ∧ mark = "SpecId".toList ∧ sigil ∉ number ∧ IsIdent id then some (id, number) else none
  | _ => none

theorem specId?_eq_some : l.specId? = some (id, number) ↔ l.opcode? = some "OpDecorate".toList ∧
    l.operands = [id, "SpecId".toList, number] ∧ sigil ∉ number ∧ IsIdent id := by
  unfold specId?
  split
  · next hops =>
    rw [hops, Option.ite_none_right_eq_some]
    simp only [List.cons.injEq, Option.some.injEq, Prod.mk.injEq, and_true]
    constructor
    · rintro ⟨⟨hop, rfl, plain, ident⟩, rfl, rfl⟩
      exact ⟨hop, ⟨rfl, rfl, rfl⟩, plain, ident⟩
    · rintro ⟨hop, ⟨rfl, rfl, rfl⟩, plain, ident⟩
      exact ⟨⟨hop, rfl, plain, ident⟩, rfl, rfl⟩
  · next hops =>
    refine iff_of_false (fun h => by cases h) ?_
    rintro ⟨-, h, -⟩
    exact hops _ _ _ h

/-- A line that defines a type or constant is read as a definition. -/
theorem exists_definition (typed : l.isTypeOrConstant = true) (hd : l.defined? = some id) : ∃ rhs, definition? l = some (id, rhs) := by
  obtain ⟨⟨before, after⟩, hs, hid⟩ := Option.map_eq_some_iff.mp hd
  exact ⟨_, definition?_eq_some.mpr ⟨typed, before, after, hs, hid, rfl⟩⟩

theorem hasCode_of_specId (h : l.specId? = some (id, number)) : l.hasCode = true := by
  have code := (specId?_eq_some.mp h).1
  unfold opcode? at code
  split at code
  · assumption
  · cases code

theorem specId?_of_isTypeOrConstant (h : l.isTypeOrConstant = true) : l.specId? = none := by
  refine Option.eq_none_iff_forall_ne_some.mpr fun d hd => ?_
  rw [isTypeOrConstant, (specId?_eq_some.mp hd).1, Option.any_some] at h
  exact absurd h (by decide)

theorem literals_renameOperands (hf : Keeps f) (l : Line) : (l.renameOperands f).literals = l.literals := by
  have plain : ∀ w, sigil ∈ Text.renameIds f w ↔ sigil ∈ w := by
    intro w
    rw [← not_iff_not]
    constructor
    · intro h
      have same : w = Text.renameIds f w := (hf.eq_iff h).mp rfl
      exact fun hm => h (same ▸ hm)
    · intro h
      rwa [renameIds_of_no_sigil f h]
  rw [literals, (renamed_renameOperands hf).operands, List.filter_map, literals]
  have same : (l.operands.filter ((fun w => decide (sigil ∉ w)) ∘ Text.renameIds f)) = l.operands.filter fun w => sigil ∉ w :=
    List.filter_congr fun w _ => by simp [plain]
  rw [same]
  refine (List.map_congr_left fun w hw => ?_).trans (List.map_id _)
  exact renameIds_of_no_sigil f (by simpa using (List.mem_filter.mp hw).2)

/-- A renaming of operands renames what is decorated. -/
theorem specId?_renameOperands (hf : Keeps f) (l : Line) :
    (l.renameOperands f).specId? = (l.specId?.map fun d => (f d.1, d.2)).filter fun d => IsIdent d.1 := by
  have renamed := renamed_renameOperands (l := l) hf
  have opcode := renamed.opcode?_eq_some hf (show sigil ∉ "OpDecorate".toList by decide)
  refine Option.ext fun ⟨id, number⟩ => ?_
  rw [specId?_eq_some, Option.filter_eq_some_iff, Option.map_eq_some_iff, opcode, renamed.operands]
  constructor
  · rintro ⟨hop, hops, plain, ident⟩
    obtain ⟨target, rest, hl, rfl, hrest⟩ := List.map_eq_cons_iff.mp hops
    obtain ⟨mark, rest, rfl, hmark, hrest⟩ := List.map_eq_cons_iff.mp hrest
    obtain ⟨n, rest, rfl, hn, hrest⟩ := List.map_eq_cons_iff.mp hrest
    obtain rfl := List.map_eq_nil_iff.mp hrest
    obtain rfl := (hf.eq_iff (by decide)).mp hmark
    obtain rfl := (hf.eq_iff plain).mp hn
    have target' := isIdent_of_renameIds ((hf.head? target).symm.trans ident.1) ident
    exact ⟨⟨(target, n), specId?_eq_some.mpr ⟨hop, hl, plain, target'⟩, by rw [renameIds_of_isIdent f target']⟩,
      decide_eq_true ident⟩
  · rintro ⟨⟨⟨target, n⟩, hl, heq⟩, ident⟩
    obtain ⟨rfl, rfl⟩ := Prod.mk.inj heq
    obtain ⟨hop, hops, plain, target'⟩ := specId?_eq_some.mp hl
    refine ⟨hop, ?_, plain, of_decide_eq_true ident⟩
    rw [hops, List.map_cons, List.map_cons, List.map_cons, List.map_nil, renameIds_of_isIdent f target',
      renameIds_of_no_sigil f plain, renameIds_of_no_sigil f (by decide)]

end Line

/-! ## The whole module -/

namespace Fusion

variable {read : Definitions} {l l' : Line}

/-- The second reading makes up for what the first one has not renamed yet. -/
theorem Reread.specId? (h : Reread read l l') (once : read.ids.Nodup) (keeps : Keeps read.standIn) :
    (l'.renameOperands read.standIn).specId? = (l.specId?.map fun d => (read.standIn d.1, d.2)).filter fun d => IsIdent d.1 := by
  rcases h with ⟨rfl, typed⟩ | ⟨before, earlier, keeps', rfl⟩
  · rw [Line.specId?_of_isTypeOrConstant typed]
    rfl
  · rw [Line.specId?_renameOperands keeps, Line.specId?_renameOperands keeps']
    cases hl : l.specId? with
    | none => rfl
    | some d =>
      have ident := (Line.specId?_eq_some.mp hl).2.2.2
      rw [Option.map_some, Option.map_some]
      rcases Definitions.standIn_prefix earlier d.1 with same | same
      · rw [same, Option.filter_some, if_pos (decide_eq_true ident), Option.map_some]
      · rw [same]
        by_cases ident' : IsIdent (read.standIn d.1)
        · simp only [Option.filter_some, ident', decide_true, if_true, Option.map_some, Definitions.standIn_standIn once]
        · simp only [Option.filter_some, ident', decide_false, Bool.false_eq_true, if_false, Option.map_none, Option.filter_none]

end Fusion

namespace Module

variable {m m' : Module} {n : Nat} {l : Line} {id : Text}

/-- The decorated identifiers of the module with their numbers, in order. -/
def specIds (m : Module) : List (Text × Text) :=
  m.lines.filterMap Line.specId?

theorem specIds_of_fuse (once : m.DefinesOnce) (h : m.fuse.result = .ok (n, m')) :
    m'.specIds = (m.specIds.map fun d => (m.readings.standIn d.1, d.2)).filter fun d => IsIdent d.1 := by
  obtain ⟨keyed, -, reread⟩ := once.keyed
  have renames : (start.readLines m.lines).1.renames.apply = m.readings.standIn := funext keyed.renames
  have keeps : Keeps m.readings.standIn := renames ▸ keeps_apply (readLines_fates m.lines named_start).1.renames
  obtain ⟨p, code, hlines⟩ := lines_of_fuse h
  rw [specIds, hlines, filterMap_filter_code (fun l _ => Line.hasCode_of_specId) code, renames, List.filterMap_map, specIds,
    List.map_filterMap, List.filter_filterMap]
  have same := fun l l' (hl : Reread m.readings l l') => hl.specId? once.nodup_readings keeps
  generalize (start.readLines m.lines).2 = ls' at reread ⊢
  generalize m.lines = ls at reread ⊢
  induction reread with
  | nil => rfl
  | cons hl _ ih =>
    rw [List.filterMap_cons, List.filterMap_cons, ih, Function.comp_apply, same _ _ hl]

/-- A type or constant is left exactly if its identifier stands for itself. -/
theorem left_of_fuse (once : m.DefinesOnce) (h : m.fuse.result = .ok (n, m')) (hl : l ∈ m.lines) (typed : l.isTypeOrConstant = true)
    (hd : l.defined? = some id) : (∃ l' ∈ m'.lines, l'.defined? = some id) ↔ m.readings.standIn id = id := by
  have firsts : id ∈ m'.definitions.ids ↔ m.readings.standIn id = id := by
    obtain ⟨rhs, hdef⟩ := Line.exists_definition typed hd
    have read : id ∈ m.readings.ids := by
      rw [readings, Definitions.ids_readings]
      exact mem_definitions_ids.mpr ⟨l, hl, rhs, hdef⟩
    obtain ⟨key, hkey⟩ := Definitions.mem_ids.mp read
    rw [ids_of_fuse once h, Definitions.mem_ids]
    constructor
    · rintro ⟨key, hm⟩
      exact of_decide_eq_true (List.mem_filter.mp hm).2
    · intro stands
      exact ⟨key, List.mem_filter.mpr ⟨hkey, decide_eq_true stands⟩⟩
  rw [← firsts, mem_definitions_ids]
  constructor
  · rintro ⟨l', hl', hd'⟩
    obtain ⟨k, hk, hdk, f, keeps, keeps', rfl⟩ := origin_of_fuse once h hl' hd'
    obtain rfl := once.line_eq hk hl hdk hd
    have first := ((Line.renamed_renameOperands (l := k) keeps).sameRole keeps).typed
    have second := ((Line.renamed_renameOperands (l := k.renameOperands f) keeps').sameRole keeps').typed
    exact ⟨_, hl', Line.exists_definition (second.trans (first.trans typed)) hd'⟩
  · rintro ⟨l', hl', rhs, hdef⟩
    exact ⟨l', hl', Line.defined?_of_definition hdef⟩

/-- In a module that defines each identifier once, a specialization constant is deleted exactly if
    an earlier type or constant is read with its right-hand side, and what is left of it is the same
    instruction with the same literals. Two are fused exactly if they are read with one right-hand
    side. Each decoration names what stands for its constant. -/
theorem fuse_specConstants (m : Module) (once : m.DefinesOnce) : ∃ n m', m.fuse.result = .ok (n, m') ∧
    (∀ l ∈ m.lines, ∀ op, "OpSpecConstant".toList <+: op → sigil ∉ op → l.opcode? = some op → ∀ id, l.defined? = some id →
      ∃ before rhs after, definition? l = some (id, rhs) ∧
        m.readings = before ++ (id, renameIds before.standIn rhs) :: after ∧
        ((∃ l' ∈ m'.lines, l'.defined? = some id) ↔ ∀ d ∈ before, d.2 ≠ renameIds before.standIn rhs) ∧
        (m.readings.standIn id = id ↔ ∀ d ∈ before, d.2 ≠ renameIds before.standIn rhs) ∧
        ∀ l' ∈ m'.lines, l'.defined? = some id → l'.opcode? = some op ∧ l'.literals = l.literals) ∧
    (∀ d ∈ m.readings, ∀ e ∈ m.readings, m.readings.standIn d.1 = m.readings.standIn e.1 ↔ d.2 = e.2) ∧
    m'.specIds = (m.specIds.map fun d => (m.readings.standIn d.1, d.2)).filter fun d => IsIdent d.1 := by
  obtain ⟨n, m', h⟩ := m.exists_fuse
  refine ⟨n, m', h, fun l hl op stem plain hop id hd => ?_,
    fun d hd e he => Definitions.standIn_eq_iff once.nodup_readings hd he, specIds_of_fuse once h⟩
  have typed : l.isTypeOrConstant = true := by
    rw [Line.isTypeOrConstant, hop, Option.any_some, Opcode.isTypeOrConstant, List.any_eq_true]
    exact ⟨_, by decide, List.isPrefixOf_iff_prefix.mpr stem⟩
  obtain ⟨rhs, hdef⟩ := Line.exists_definition typed hd
  have defined : (id, rhs) ∈ m.definitions := List.mem_filterMap.mpr ⟨l, hl, hdef⟩
  obtain ⟨before, after, hsplit⟩ := Definitions.exists_split defined
  obtain ⟨later, hread⟩ := Definitions.readings_split before (id, rhs) after
  rw [← hsplit] at hread
  have hread : m.readings = before.readings ++ (id, renameIds before.readings.standIn rhs) :: later := hread
  have stands : m.readings.standIn id = id ↔ ∀ d ∈ before.readings, d.2 ≠ renameIds before.readings.standIn rhs := by
    have nodup := once.nodup_readings
    rw [hread] at nodup ⊢
    exact Definitions.standIn_eq_self_iff nodup
  refine ⟨before.readings, rhs, later, hdef, hread, (left_of_fuse once h hl typed hd).trans stands, stands, fun l' hl' hd' => ?_⟩
  obtain ⟨k, hk, hdk, f, keeps, keeps', rfl⟩ := origin_of_fuse once h hl' hd'
  obtain rfl := once.line_eq hk hl hdk hd
  refine ⟨?_, ?_⟩
  · rwa [(Line.renamed_renameOperands keeps').opcode?_eq_some keeps' plain,
      (Line.renamed_renameOperands keeps).opcode?_eq_some keeps plain]
  · rw [Line.literals_renameOperands keeps', Line.literals_renameOperands keeps]

/-- Two constants with numbers of their own, whose types are one type written twice. -/
def specialized (first second : Text) : Module :=
  ⟨[⟨.header, []⟩, ⟨.decorations, [⟨"OpDecorate %a SpecId 0".toList⟩, ⟨"OpDecorate %b SpecId 1".toList⟩]⟩,
    ⟨.definitions, [⟨"%u = OpTypeInt 32 0".toList⟩, ⟨"%v = OpTypeInt 32 0".toList⟩,
      ⟨"%a = OpSpecConstant %u ".toList ++ first⟩, ⟨"%b = OpSpecConstant %v ".toList ++ second⟩]⟩]⟩

theorem fuse_specConstants_apart : (specialized ['1'] ['2']).DefinesOnce ∧ ∃ n m', (specialized ['1'] ['2']).fuse.result = .ok (n, m') ∧
    (∃ l' ∈ m'.lines, l'.defined? = some "%a".toList) ∧ (∃ l' ∈ m'.lines, l'.defined? = some "%b".toList) ∧
    m'.specIds = [("%a".toList, ['0']), ("%b".toList, ['1'])] := by
  have once : (specialized ['1'] ['2']).DefinesOnce := by decide +kernel
  obtain ⟨n, m', h, constants, -, specIds⟩ := fuse_specConstants _ once
  obtain ⟨_, _, _, _, _, leftA, standsA, _⟩ := constants ⟨"%a = OpSpecConstant %u 1".toList⟩ (by decide +kernel)
    "OpSpecConstant".toList List.prefix_rfl (by decide) (by decide +kernel) "%a".toList (by decide +kernel)
  obtain ⟨_, _, _, _, _, leftB, standsB, _⟩ := constants ⟨"%b = OpSpecConstant %v 2".toList⟩ (by decide +kernel)
    "OpSpecConstant".toList List.prefix_rfl (by decide) (by decide +kernel) "%b".toList (by decide +kernel)
  exact ⟨once, n, m', h, leftA.mpr (standsA.mp (by decide +kernel)), leftB.mpr (standsB.mp (by decide +kernel)),
    specIds.trans (by decide +kernel)⟩

theorem fuse_specConstants_merged : (specialized ['1'] ['1']).DefinesOnce ∧
    (specialized ['1'] ['1']).specIds = [("%a".toList, ['0']), ("%b".toList, ['1'])] ∧
    ∃ m', (specialized ['1'] ['1']).fuse.result = .ok (2, m') ∧ m'.lines.filterMap Line.defined? = ["%u".toList, "%a".toList] ∧
      m'.specIds = [("%a".toList, ['0']), ("%a".toList, ['1'])] := by
  refine ⟨by decide +kernel, by decide +kernel, _, rfl, by decide +kernel, by decide +kernel⟩

end Module

end SpirvLink
