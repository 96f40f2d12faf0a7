/-
  SpirvLink.Proofs.Line.Reading — what a line says after an edit, on any line.

  The lines here need not be well spaced. A renaming of operands renames the words of the
  instruction and nothing else (`renamed_renameOperands`), and so does a renaming of the
  whole line if no identifier on it holds an equals sign (`renamed_renameIds`). Since no
  word with a percent sign becomes one without, an edit never makes another opcode of the
  one a line has. A trimmed line says what it said (`defined?_trim`, `opcode?_trim`).
-/

import SpirvLink.Line.Edit
import SpirvLink.Proofs.Text.Cutting

namespace SpirvLink.Line

variable {l l' : Line} {f : Text → Text} {op id before after : Text}

/-! ## Both sides of a definition -/

theorem halves?_eq_some : l.halves? = some (before, after) ↔ Text.Cuts l.text before after := by
  rw [halves?, Option.filter_eq_some_iff]
  rfl

theorem isSome_halves? : l.halves?.isSome = true ↔ Text.DefiningWords (Text.words l.text) := by
  rw [← Text.cuts_iff_definingWords, Option.isSome_iff_exists]
  constructor
  · rintro ⟨⟨before, after⟩, hs⟩
    exact ⟨before, after, halves?_eq_some.mp hs⟩
  · rintro ⟨before, after, hcut⟩
    exact ⟨(before, after), halves?_eq_some.mpr hcut⟩

theorem halves?_eq_none : l.halves? = none ↔ ¬ Text.DefiningWords (Text.words l.text) := by
  rw [← isSome_halves?, Bool.not_eq_true, Option.isSome_eq_false_iff, Option.isNone_iff_eq_none]

/-- What a line defines can be put in the place of an identifier. -/
theorem isName_of_defined (h : l.defined? = some id) : Text.IsName id := by
  obtain ⟨⟨before, after⟩, hs, hid⟩ := Option.map_eq_some_iff.mp h
  obtain rfl : Text.trim before = id := hid
  obtain ⟨hcut, hcan⟩ := halves?_eq_some.mp hs
  obtain ⟨-, hequals⟩ := Text.cutAt_eq_some.mp hcut
  obtain ⟨u, hu, hh⟩ := Text.canDefine_trim_iff.mp hcan
  have heq := Text.trim_eq_of_words hu
  have hw : Text.IsWord u := Text.isWord_of_mem_words (hu ▸ List.mem_cons_self ..)
  refine ⟨heq ▸ hh, heq ▸ hw.2, fun hm => hequals ?_⟩
  obtain ⟨blanks, rest, rfl, -⟩ := Text.words_eq_cons.mp hu
  exact List.mem_append_right _ (List.mem_append_left _ (heq ▸ hm))

theorem hasCode_iff : l.hasCode = true ↔
    ∃ u vs, Text.words l.text = u :: vs ∧ u.head? ≠ some commentMarker := by
  unfold hasCode
  cases hw : Text.words l.text with
  | nil =>
    have start : Text.trimStart l.text = [] := by
      rw [← List.append_nil l.text, Text.trimStart_blanks (Text.words_eq_nil_iff.mp hw)]
      rfl
    simp [start]
  | cons u vs =>
    obtain ⟨blanks, rest, htext, hb, hu, -⟩ := Text.words_eq_cons.mp hw
    obtain ⟨c, w, rfl⟩ := List.exists_cons_of_ne_nil hu.1
    rw [htext, Text.trimStart_blanks hb, Text.trimStart_word hu, List.cons_append]
    simp

theorem hasCode_congr (hf : Text.Keeps f) {l' : Line}
    (h : Text.words l'.text = (Text.words l.text).map (Text.renameIds f)) : l'.hasCode = l.hasCode := by
  rw [Bool.eq_iff_iff, hasCode_iff, hasCode_iff, h]
  cases Text.words l.text with
  | nil => simp
  | cons u vs => simp [hf.head?]

theorem hasCode_of_halves (h : l.halves?.isSome = true) : l.hasCode = true := by
  have hd := isSome_halves?.mp h
  rw [hasCode_iff]
  cases hw : Text.words l.text with
  | nil =>
    rw [hw] at hd
    exact hd.elim
  | cons u vs =>
    rw [hw] at hd
    exact ⟨u, vs, rfl, by rw [hd.1]; decide⟩

theorem hasCode_of_defined (h : l.defined? = some id) : l.hasCode = true := by
  obtain ⟨halves, hs, -⟩ := Option.map_eq_some_iff.mp h
  exact hasCode_of_halves (by rw [hs]; rfl)

theorem instruction_of_halves (h : l.halves? = some (before, after)) : l.instruction = Text.trim after := by
  rw [instruction, rhs?, h]
  rfl

theorem instruction_of_none (h : l.halves? = none) : l.instruction = Text.trim l.text := by
  rw [instruction, rhs?, h]
  rfl

/-! ## Renamed instructions -/

/-- The second line says what the first one says, its words renamed. -/
structure Renamed (f : Text → Text) (l l' : Line) : Prop where
  code : l'.hasCode = l.hasCode
  words : Text.words l'.instruction = (Text.words l.instruction).map (Text.renameIds f)

theorem Renamed.opcode? (h : Renamed f l l') : l'.opcode? = l.opcode?.map (Text.renameIds f) := by
  rw [Line.opcode?, Line.opcode?, h.code, h.words, List.head?_map]
  split <;> rfl

theorem Renamed.operands (h : Renamed f l l') : l'.operands = l.operands.map (Text.renameIds f) := by
  rw [Line.operands, Line.operands, h.code, h.words, ← List.map_tail]
  split <;> rfl

theorem Renamed.opcode?_eq_some (h : Renamed f l l') (hf : Text.Keeps f) (hop : Text.sigil ∉ op) :
    l'.opcode? = some op ↔ l.opcode? = some op := by
  rw [h.opcode?, Option.map_eq_some_iff]
  constructor
  · rintro ⟨w, hw, heq⟩
    rw [hw, (hf.eq_iff hop).mp heq]
  · exact fun hop' => ⟨op, hop', (hf.eq_iff hop).mpr rfl⟩

theorem Renamed.mem_operands (h : Renamed f l l') (hf : Text.Keeps f) (hop : Text.sigil ∉ op) :
    op ∈ l'.operands ↔ op ∈ l.operands := by
  rw [h.operands, List.mem_map]
  constructor
  · rintro ⟨w, hw, heq⟩
    exact (hf.eq_iff hop).mp heq ▸ hw
  · exact fun hop' => ⟨op, hop', (hf.eq_iff hop).mpr rfl⟩

/-- Where the line defines nothing, all its words are those of the instruction. -/
theorem renamed_of_none (hf : Text.Keeps f) (h : l.halves? = none)
    (hw : Text.words l'.text = (Text.words l.text).map (Text.renameIds f)) : Renamed f l l' := by
  have none' : l'.halves? = none := by
    rw [halves?_eq_none, hw]
    exact fun hd => halves?_eq_none.mp h (hf.definingWords hd)
  refine ⟨hasCode_congr hf hw, ?_⟩
  rw [instruction_of_none none', instruction_of_none h, Text.words_trim, Text.words_trim, hw]

theorem renamed_of_some (hf : Text.Keeps f) {before' : Text} (h : l.halves? = some (before, after))
    (h' : l'.halves? = some (before', Text.renameIds f after)) : Renamed f l l' := by
  refine ⟨by rw [hasCode_of_halves (by rw [h']; rfl), hasCode_of_halves (by rw [h]; rfl)], ?_⟩
  rw [instruction_of_halves h, instruction_of_halves h', Text.words_trim, Text.words_trim, hf.words]

theorem renameOperands_of_none (h : l.halves? = none) : l.renameOperands f = l.renameIds f := by
  rw [renameOperands, h]

theorem text_renameOperands (h : l.halves? = some (before, after)) :
    (l.renameOperands f).text = before ++ '=' :: Text.renameIds f after := by
  rw [renameOperands, h]

theorem renameOperands_id (l : Line) : l.renameOperands (fun id => id) = l := by
  cases hs : l.halves? with
  | none =>
    rw [renameOperands_of_none hs]
    exact congrArg Line.mk (Text.renameIds_id l.text)
  | some h =>
    obtain ⟨htext, -⟩ := Text.cutAt_eq_some.mp (halves?_eq_some.mp hs).1
    refine congrArg Line.mk ((text_renameOperands hs).trans ?_)
    rw [htext]
    exact congrArg (h.1 ++ '=' :: ·) (Text.renameIds_id h.2)

/-- A renaming of operands leaves what stands before the equals sign. -/
theorem halves?_renameOperands (h : l.halves? = some (before, after)) :
    (l.renameOperands f).halves? = some (before, Text.renameIds f after) := by
  obtain ⟨hcut, hcan⟩ := halves?_eq_some.mp h
  exact halves?_eq_some.mpr
    ⟨Text.cutAt_eq_some.mpr ⟨text_renameOperands h, (Text.cutAt_eq_some.mp hcut).2⟩, hcan⟩

theorem renamed_renameOperands (hf : Text.Keeps f) : Renamed f l (l.renameOperands f) := by
  cases hs : l.halves? with
  | none =>
    rw [renameOperands_of_none hs]
    exact renamed_of_none hf hs (hf.words l.text)
  | some h => exact renamed_of_some hf hs (halves?_renameOperands hs)

theorem halves?_renameOperands_none (hf : Text.Keeps f) (h : l.halves? = none) : (l.renameOperands f).halves? = none := by
  rw [renameOperands_of_none h, halves?_eq_none, renameIds, hf.words]
  exact fun hd => halves?_eq_none.mp h (hf.definingWords hd)

theorem defined?_renameOperands (hf : Text.Keeps f) (l : Line) : (l.renameOperands f).defined? = l.defined? := by
  rw [defined?, defined?]
  cases hs : l.halves? with
  | none => rw [halves?_renameOperands_none hf hs]
  | some h => rw [halves?_renameOperands hs, Option.map_some, Option.map_some]

/-- A renaming of the whole line renames both sides of its first equals sign. -/
theorem halves?_renameIds (hf : Text.Keeps f) (hl : Text.EqualsFree l.text) :
    (l.renameIds f).halves? = l.halves?.map fun (before, after) => (Text.renameIds f before, Text.renameIds f after) := by
  cases hs : l.halves? with
  | none =>
    rw [Option.map_none, halves?_eq_none, renameIds, hf.words]
    exact fun hd => halves?_eq_none.mp hs (hf.definingWords hd)
  | some h =>
    obtain ⟨before, after⟩ := h
    obtain ⟨hcut, hcan⟩ := halves?_eq_some.mp hs
    obtain ⟨htext, hequals⟩ := Text.cutAt_eq_some.mp hcut
    obtain ⟨u, hu, hh⟩ := Text.canDefine_trim_iff.mp hcan
    refine halves?_eq_some.mpr ⟨?_, ?_⟩
    · rw [htext] at hl
      rw [renameIds, htext, Text.renameIds_cut f hl]
      exact Text.cutAt_eq_some.mpr ⟨rfl, fun hm => hequals (hf.mem_equals hm)⟩
    · exact Text.canDefine_trim_iff.mpr ⟨_, by rw [hf.words, hu]; rfl, by rw [hf.head?, hh]⟩

theorem renamed_renameIds (hf : Text.Keeps f) (hl : Text.EqualsFree l.text) : Renamed f l (l.renameIds f) := by
  cases hs : l.halves? with
  | none => exact renamed_of_none hf hs (hf.words l.text)
  | some h => exact renamed_of_some hf hs (by rw [halves?_renameIds hf hl, hs]; rfl)

/-! ## Trimmed lines -/

theorem isEmpty_iff : l.isEmpty = true ↔ Text.words l.text = [] := by
  rw [Text.words_eq_nil_iff, isEmpty, List.all_eq_true]

theorem words_text_trim (l : Line) : Text.words l.trim.text = Text.words l.text :=
  Text.words_trim _

theorem isEmpty_trim (l : Line) : l.trim.isEmpty = l.isEmpty := by
  rw [Bool.eq_iff_iff, isEmpty_iff, isEmpty_iff, words_text_trim]

theorem hasCode_trim (l : Line) : l.trim.hasCode = l.hasCode := by
  have same : Text.renameIds id = id := funext Text.renameIds_id
  exact hasCode_congr (f := id) (fun _ _ => Or.inl rfl) (by rw [words_text_trim, same, List.map_id])

theorem halves?_trim_of_none (h : l.halves? = none) : l.trim.halves? = none := by
  rwa [halves?_eq_none, words_text_trim, ← halves?_eq_none]

/-- The blanks at the start of a line are before the identifier, those at the end after the
    equals sign. -/
theorem halves?_trim_of_some (h : l.halves? = some (before, after)) :
    ∃ before', l.trim.halves? = some (before', Text.trimEnd after) ∧ Text.trim before' = Text.trim before := by
  obtain ⟨hcut, hcan⟩ := halves?_eq_some.mp h
  obtain ⟨htext, hequals⟩ := Text.cutAt_eq_some.mp hcut
  obtain ⟨u, hu, hh⟩ := Text.canDefine_trim_iff.mp hcan
  obtain ⟨blanks, rest, rfl, hb, hword, hbreaks, hrest⟩ := Text.words_eq_cons.mp hu
  have ends : Text.trimEnd ('=' :: after) = '=' :: Text.trimEnd after := by
    rw [Text.trimEnd]
    exact if_neg (by simp [Text.not_blank_equals])
  have hu' : Text.words (u ++ rest) = [u] := by rw [Text.words_append hword hbreaks, hrest]
  refine ⟨u ++ rest, halves?_eq_some.mpr ⟨Text.cutAt_eq_some.mpr ⟨?_, fun hm =>
    hequals (List.mem_append_right _ hm)⟩, Text.canDefine_trim_iff.mpr ⟨u, hu', hh⟩⟩, ?_⟩
  · rw [trim, Text.trim, htext, List.append_assoc, Text.trimStart_blanks hb, List.append_assoc,
      Text.trimStart_word hword, ← List.append_assoc, Text.trimEnd_append_of_ne (by simp [ends]), ends]
  · rw [Text.trim_eq_of_words hu', Text.trim_eq_of_words hu]

theorem defined?_trim (l : Line) : l.trim.defined? = l.defined? := by
  rw [defined?, defined?]
  cases hs : l.halves? with
  | none => rw [halves?_trim_of_none hs]
  | some h =>
    obtain ⟨before', hs', htrim⟩ := halves?_trim_of_some hs
    rw [hs']
    exact congrArg some htrim

theorem words_instruction_trim (l : Line) : Text.words l.trim.instruction = Text.words l.instruction := by
  cases hs : l.halves? with
  | none =>
    rw [instruction_of_none (halves?_trim_of_none hs), instruction_of_none hs, Text.words_trim, Text.words_trim,
      words_text_trim]
  | some h =>
    obtain ⟨before', hs', -⟩ := halves?_trim_of_some hs
    rw [instruction_of_halves hs', instruction_of_halves hs, Text.words_trim, Text.words_trim, Text.words_trimEnd]

theorem opcode?_trim (l : Line) : l.trim.opcode? = l.opcode? := by
  rw [opcode?, opcode?, hasCode_trim, words_instruction_trim]

theorem hasOpcode_trim (op : Text) (l : Line) : l.trim.hasOpcode op = l.hasOpcode op := by
  rw [hasOpcode, hasOpcode, opcode?_trim]

end SpirvLink.Line
