/-
  SpirvLink.Proofs.Line.WellSpaced — lines in the form that the producers write.

  A well-spaced line is `[%id = ]Op token*` with single spaces and plain identifiers. It is
  read back into the parts that it was printed from (`Spaced.defined?_eq`,
  `Spaced.opcode?_eq`, `Spaced.operands_eq`), and a renaming to plain identifiers renames
  the parts and leaves the opcode (`Spaced.renameIds`). Everything about inlining is said
  in terms of what a line defines, does and uses, so no later proof looks into its text.
-/

import SpirvLink.Line.Edit
import SpirvLink.Proofs.Text.Cutting

namespace SpirvLink

/-! ## Plain identifiers -/

/-- An identifier without an equals sign and without a second percent sign. -/
def Text.IsPlainIdent (s : Text) : Prop :=
  Text.IsIdent s ∧ '=' ∉ s ∧ Text.sigil ∉ s.tail

instance (s : Text) : Decidable (Text.IsPlainIdent s) :=
  inferInstanceAs (Decidable (_ ∧ _))

/-- An opcode starts with `Op` and holds no identifier. -/
def Text.IsOpcode (op : Text) : Prop :=
  "Op".toList <+: op ∧ Text.IsWord op ∧ Text.sigil ∉ op

instance (op : Text) : Decidable (Text.IsOpcode op) :=
  inferInstanceAs (Decidable (_ ∧ _))

/-- A word whose identifiers are plain. -/
def Text.IsToken (t : Text) : Prop :=
  Text.IsWord t ∧ ∀ id ∈ Text.identifiers t, Text.IsPlainIdent id

instance (t : Text) : Decidable (Text.IsToken t) :=
  inferInstanceAs (Decidable (_ ∧ _))

namespace Line

/-- The line is the instruction with these parts, one space between them. -/
structure Spaced (l : Line) (defined : Option Text) (op : Text) (operands : List Text) : Prop where
  text : l = ofParts defined op operands
  ident : ∀ id ∈ defined, Text.IsPlainIdent id
  opcode : Text.IsOpcode op
  tokens : ∀ t ∈ operands, Text.IsToken t

instance (l : Line) (d : Option Text) (op : Text) (ts : List Text) : Decidable (Spaced l d op ts) :=
  decidable_of_iff (l = ofParts d op ts ∧ (∀ id ∈ d, Text.IsPlainIdent id) ∧ Text.IsOpcode op ∧
      ∀ t ∈ ts, Text.IsToken t)
    ⟨fun h => ⟨h.1, h.2.1, h.2.2.1, h.2.2.2⟩, fun h => ⟨h.text, h.ident, h.opcode, h.tokens⟩⟩

/-- `[%id = ]Op token*` with single spaces. -/
def WellSpaced (l : Line) : Prop :=
  ∃ defined op operands, Spaced l defined op operands

/-! ## Reading the parts -/

variable {l : Line} {d : Option Text} {op : Text} {ts : List Text}

namespace Spaced

theorem words (h : Spaced l d op ts) : ∀ w ∈ op :: ts, Text.IsWord w := by
  intro w hw
  rcases List.mem_cons.mp hw with rfl | hw
  · exact h.opcode.2.1
  · exact (h.tokens w hw).1

/-- The instruction starts with the first letter of its opcode. -/
theorem instruction_text (h : Spaced l d op ts) : ∃ s, Text.unwords (op :: ts) = 'O' :: 'p' :: s := by
  obtain ⟨s, hs⟩ := Text.unwords_cons op ts
  obtain ⟨t, ht⟩ := h.opcode.1
  exact ⟨t ++ s, by rw [hs, ← ht]; rfl⟩

theorem text_none (h : Spaced l none op ts) : l.text = Text.unwords (op :: ts) := by
  rw [h.text]
  rfl

theorem text_some {id : Text} (h : Spaced l (some id) op ts) :
    l.text = id ++ ' ' :: '=' :: ' ' :: Text.unwords (op :: ts) := by
  rw [h.text, ofParts]
  simp

theorem isWord_ident {id : Text} (h : Spaced l (some id) op ts) : Text.IsWord id :=
  (h.ident id rfl).1.isWord

theorem halves?_some {id : Text} (h : Spaced l (some id) op ts) :
    l.halves? = some (id ++ [' '], ' ' :: Text.unwords (op :: ts)) := by
  have hid := h.ident id rfl
  have cut : Text.cutAt '=' l.text = some (id ++ [' '], ' ' :: Text.unwords (op :: ts)) := by
    rw [h.text_some, show id ++ ' ' :: '=' :: ' ' :: Text.unwords (op :: ts) =
      (id ++ [' ']) ++ '=' :: ' ' :: Text.unwords (op :: ts) by simp]
    exact Text.cutAt_eq_some.mpr ⟨rfl, by simp [hid.2.1]⟩
  have can : canDefine id = true := by
    simp only [canDefine, hid.1.1, beq_self_eq_true, Bool.true_and, Bool.not_eq_true', Text.hasBlank,
      List.any_eq_false, Bool.not_eq_true]
    exact hid.1.not_blank
  rw [halves?, cut, Option.filter_some]
  simp only [Text.trim_append_space h.isWord_ident, can, if_true]

/-- Nothing before an equals sign can be defined where the line starts with its opcode. -/
theorem halves?_none (h : Spaced l none op ts) : l.halves? = none := by
  obtain ⟨s, hs⟩ := h.instruction_text
  rw [halves?, h.text_none, hs, Text.cutAt, if_neg (by decide)]
  cases hc : Text.cutAt '=' ('p' :: s) with
  | none => rfl
  | some p =>
    have trimmed : ∃ t, Text.trim ('O' :: p.1) = 'O' :: t := by
      rw [Text.trim, Text.trimStart_of_head (by decide), Text.trimEnd]
      exact ⟨_, if_neg (by simp [show isBlank 'O' = false by decide])⟩
    obtain ⟨t, ht⟩ := trimmed
    rw [Option.map_some, Option.filter_some]
    simp only [canDefine, ht]
    rfl

theorem defined?_eq (h : Spaced l d op ts) : l.defined? = d := by
  cases d with
  | none => rw [defined?, h.halves?_none]; rfl
  | some id =>
    rw [defined?, h.halves?_some]
    exact congrArg some (Text.trim_append_space h.isWord_ident)

theorem rhs?_some {id : Text} (h : Spaced l (some id) op ts) : l.rhs? = some (Text.unwords (op :: ts)) := by
  rw [rhs?, h.halves?_some]
  exact congrArg some (Text.trim_space_unwords h.words)

theorem rhs?_none (h : Spaced l none op ts) : l.rhs? = none := by
  rw [rhs?, h.halves?_none]
  rfl

theorem trim_text (h : Spaced l d op ts) : Text.trim l.text = l.text := by
  obtain ⟨s, hs⟩ := h.instruction_text
  have last := Text.getLast?_unwords h.words
  cases d with
  | none =>
    rw [h.text_none]
    refine Text.trim_of_ends (fun c hc => ?_) last
    rw [hs] at hc
    cases hc
    decide
  | some id =>
    rw [h.text_some]
    refine Text.trim_of_ends (fun c hc => ?_) (fun c hc => last c ?_)
    · refine h.isWord_ident.2 c ?_
      obtain ⟨e, w, rfl⟩ := List.exists_cons_of_ne_nil h.isWord_ident.1
      exact List.mem_of_mem_head? hc
    · rw [hs] at hc ⊢
      simpa [List.getLast?_append] using hc

theorem instruction_eq (h : Spaced l d op ts) : l.instruction = Text.unwords (op :: ts) := by
  cases d with
  | none => rw [instruction, h.rhs?_none, Option.getD_none, h.trim_text, h.text_none]
  | some id => rw [instruction, h.rhs?_some, Option.getD_some]

theorem hasCode (h : Spaced l d op ts) : l.hasCode = true := by
  obtain ⟨s, hs⟩ := h.instruction_text
  cases d with
  | none =>
    rw [Line.hasCode, h.text_none, hs, Text.trimStart_of_head (by decide)]
    rfl
  | some id =>
    obtain ⟨c, w, rfl⟩ := List.exists_cons_of_ne_nil h.isWord_ident.1
    have hc : c = Text.sigil := by simpa using (h.ident _ rfl).1.1
    rw [Line.hasCode, h.text_some, List.cons_append, Text.trimStart_of_head (by rw [hc]; decide), hc]
    rfl

theorem opcode?_eq (h : Spaced l d op ts) : l.opcode? = some op := by
  rw [opcode?, if_pos h.hasCode, h.instruction_eq, Text.words_unwords h.words]
  rfl

theorem operands_eq (h : Spaced l d op ts) : l.operands = ts := by
  rw [operands, if_pos h.hasCode, h.instruction_eq, Text.words_unwords h.words]
  rfl

/-! ## The identifiers on the line -/

theorem instruction_ids (h : Spaced l d op ts) :
    Text.identifiers (Text.unwords (op :: ts)) = ts.flatMap Text.identifiers := by
  rw [Text.identifiers_unwords, List.flatMap_cons, Text.identifiers_of_no_sigil h.opcode.2.2, List.nil_append]

theorem ids_eq (h : Spaced l d op ts) : l.ids = d.toList ++ ts.flatMap Text.identifiers := by
  cases d with
  | none => rw [ids, h.text_none, h.instruction_ids]; rfl
  | some id =>
    have gap : Text.identifiers ('=' :: ' ' :: Text.unwords (op :: ts)) = ts.flatMap Text.identifiers := by
      have := Text.identifiers_blank isBlank_space ['='] (Text.unwords (op :: ts))
      rw [h.instruction_ids, Text.identifiers_of_no_sigil (s := ['=']) (by decide)] at this
      exact this
    rw [ids, h.text_some, Text.identifiers_blank isBlank_space, gap]
    rw [Text.identifiers_of_isIdent (h.ident id rfl).1]
    rfl

theorem rhsIds_eq (h : Spaced l d op ts) : l.rhsIds = if d.isSome then ts.flatMap Text.identifiers else [] := by
  cases d with
  | none => rw [rhsIds, h.rhs?_none]; rfl
  | some id => rw [rhsIds, h.rhs?_some, Option.map_some, h.instruction_ids]; rfl

theorem operandIds_eq (h : Spaced l d op ts) : l.operandIds = ts.flatMap Text.identifiers := by
  cases d with
  | none => rw [operandIds, h.rhs?_none, h.ids_eq]; rfl
  | some id => rw [operandIds, h.rhs?_some, Option.map_some, h.instruction_ids]; rfl

/-! ## Renaming -/

theorem token_renameIds {f : Text → Text} {t : Text} (ht : Text.IsToken t)
    (hf : ∀ id ∈ Text.identifiers t, Text.IsPlainIdent (f id)) : Text.IsToken (Text.renameIds f t) := by
  refine ⟨Text.isWord_renameIds (fun id hid => (hf id hid).1.isWord) ht.1, fun id hid => ?_⟩
  rw [Text.identifiers_renameIds fun id hid => (hf id hid).1] at hid
  obtain ⟨i, hi, rfl⟩ := List.mem_map.mp hid
  exact hf i hi

/-- A renaming to plain identifiers renames the parts of a line; the opcode has none. -/
theorem renameIds {f : Text → Text} (h : Spaced l d op ts) (hf : ∀ id ∈ l.ids, Text.IsPlainIdent (f id)) :
    Spaced (l.renameIds f) (d.map f) op (ts.map (Text.renameIds f)) := by
  rw [h.ids_eq] at hf
  have inst : Text.renameIds f (Text.unwords (op :: ts)) = Text.unwords (op :: ts.map (Text.renameIds f)) := by
    rw [Text.renameIds_unwords, List.map_cons, Text.renameIds_of_no_sigil f h.opcode.2.2]
  refine ⟨?_, fun id hid => ?_, h.opcode, fun t ht => ?_⟩
  · cases d with
    | none => rw [Line.renameIds, h.text_none, inst]; rfl
    | some id =>
      have name : Text.renameIds f id = f id := Text.renameIds_of_isIdent f (h.ident id rfl).1
      have gap : Text.renameIds f ('=' :: ' ' :: Text.unwords (op :: ts)) =
          '=' :: ' ' :: Text.unwords (op :: ts.map (Text.renameIds f)) := by
        have := Text.renameIds_blank f isBlank_space ['='] (Text.unwords (op :: ts))
        rw [inst, Text.renameIds_of_no_sigil f (s := ['=']) (by decide)] at this
        exact this
      rw [Line.renameIds, h.text_some, Text.renameIds_blank f isBlank_space, name, gap, Option.map_some,
        ofParts]
      simp
  · obtain ⟨i, hi, rfl⟩ := Option.map_eq_some_iff.mp hid
    exact hf i (List.mem_append_left _ (by simp [hi]))
  · obtain ⟨u, hu, rfl⟩ := List.mem_map.mp ht
    exact token_renameIds (h.tokens u hu) fun id hid =>
      hf id (List.mem_append_right _ (List.mem_flatMap.mpr ⟨u, hu, hid⟩))

theorem tokens_renameIds {f : Text → Text} (h : Spaced l d op ts) (hf : ∀ id ∈ l.ids, Text.IsPlainIdent (f id)) :
    (ts.map (Text.renameIds f)).flatMap Text.identifiers = (ts.flatMap Text.identifiers).map f := by
  rw [h.ids_eq] at hf
  rw [← Text.identifiers_unwords, ← Text.identifiers_unwords, ← Text.renameIds_unwords]
  refine Text.identifiers_renameIds fun id hid => (hf id (List.mem_append_right _ ?_)).1
  rwa [← Text.identifiers_unwords]

end Spaced

/-! ## What well-spaced lines answer -/

theorem wellSpaced_iff : l.WellSpaced ↔ ∃ op ∈ l.opcode?, Spaced l l.defined? op l.operands := by
  constructor
  · rintro ⟨d, op, ts, h⟩
    exact ⟨op, h.opcode?_eq, by rw [h.defined?_eq, h.operands_eq]; exact h⟩
  · rintro ⟨op, _, h⟩
    exact ⟨_, op, _, h⟩

instance (l : Line) : Decidable l.WellSpaced :=
  decidable_of_iff _ wellSpaced_iff.symm

namespace WellSpaced

theorem trim (h : l.WellSpaced) : l.trim = l := by
  obtain ⟨d, op, ts, h⟩ := h
  rw [Line.trim, h.trim_text]

theorem ids_eq (h : l.WellSpaced) : l.ids = l.defined?.toList ++ l.operandIds := by
  obtain ⟨d, op, ts, h⟩ := h
  rw [h.ids_eq, h.defined?_eq, h.operandIds_eq]

theorem mem_ids_of_defined (h : l.WellSpaced) {id : Text} (hd : l.defined? = some id) : id ∈ l.ids := by
  rw [h.ids_eq, hd]
  exact List.mem_append_left _ (List.mem_singleton.mpr rfl)

theorem mem_ids_of_rhs (h : l.WellSpaced) {id : Text} (hr : id ∈ l.rhsIds) : id ∈ l.ids := by
  obtain ⟨d, op, ts, h⟩ := h
  rw [h.rhsIds_eq] at hr
  rw [h.ids_eq]
  cases d with
  | none => cases hr
  | some _ => exact List.mem_append_right _ hr

theorem plain (h : l.WellSpaced) : ∀ id ∈ l.ids, Text.IsPlainIdent id := by
  obtain ⟨d, op, ts, h⟩ := h
  intro id hid
  rw [h.ids_eq] at hid
  rcases List.mem_append.mp hid with hd | ht
  · exact h.ident id (by simpa using hd)
  · obtain ⟨t, ht, hid⟩ := List.mem_flatMap.mp ht
    exact (h.tokens t ht).2 id hid

variable {f : Text → Text}

theorem renameIds (h : l.WellSpaced) (hf : ∀ id ∈ l.ids, Text.IsPlainIdent (f id)) :
    (l.renameIds f).WellSpaced := by
  obtain ⟨d, op, ts, h⟩ := h
  exact ⟨_, _, _, h.renameIds hf⟩

theorem defined?_renameIds (h : l.WellSpaced) (hf : ∀ id ∈ l.ids, Text.IsPlainIdent (f id)) :
    (l.renameIds f).defined? = l.defined?.map f := by
  obtain ⟨d, op, ts, h⟩ := h
  rw [(h.renameIds hf).defined?_eq, h.defined?_eq]

theorem opcode?_renameIds (h : l.WellSpaced) (hf : ∀ id ∈ l.ids, Text.IsPlainIdent (f id)) :
    (l.renameIds f).opcode? = l.opcode? := by
  obtain ⟨d, op, ts, h⟩ := h
  rw [(h.renameIds hf).opcode?_eq, h.opcode?_eq]

theorem operands_renameIds (h : l.WellSpaced) (hf : ∀ id ∈ l.ids, Text.IsPlainIdent (f id)) :
    (l.renameIds f).operands = l.operands.map (Text.renameIds f) := by
  obtain ⟨d, op, ts, h⟩ := h
  rw [(h.renameIds hf).operands_eq, h.operands_eq]

theorem operandIds_renameIds (h : l.WellSpaced) (hf : ∀ id ∈ l.ids, Text.IsPlainIdent (f id)) :
    (l.renameIds f).operandIds = l.operandIds.map f := by
  obtain ⟨d, op, ts, h⟩ := h
  rw [(h.renameIds hf).operandIds_eq, h.operandIds_eq, h.tokens_renameIds hf]

theorem rhsIds_renameIds (h : l.WellSpaced) (hf : ∀ id ∈ l.ids, Text.IsPlainIdent (f id)) :
    (l.renameIds f).rhsIds = l.rhsIds.map f := by
  obtain ⟨d, op, ts, h⟩ := h
  rw [(h.renameIds hf).rhsIds_eq, h.rhsIds_eq, h.tokens_renameIds hf]
  cases d <;> rfl

theorem isCall_renameIds (h : l.WellSpaced) (hf : ∀ id ∈ l.ids, Text.IsPlainIdent (f id)) :
    (l.renameIds f).isCall = l.isCall := by
  rw [isCall, hasOpcode, h.opcode?_renameIds hf]
  rfl

end WellSpaced

theorem ids_renameIds {f : Text → Text} (hf : ∀ id ∈ l.ids, Text.IsIdent (f id)) :
    (l.renameIds f).ids = l.ids.map f :=
  Text.identifiers_renameIds hf

theorem renameIds_renameIds {f : Text → Text} (g : Text → Text) (hf : ∀ id ∈ l.ids, Text.IsIdent (f id)) :
    (l.renameIds f).renameIds g = l.renameIds (g ∘ f) := by
  rw [Line.renameIds, Line.renameIds, Text.renameIds_renameIds g hf]
  rfl

theorem renameIds_congr {f g : Text → Text} (h : ∀ id ∈ l.ids, f id = g id) :
    l.renameIds f = l.renameIds g :=
  congrArg Line.mk (Text.renameIds_congr h)

theorem renameIds_of_eq {f : Text → Text} (h : ∀ id ∈ l.ids, f id = id) : l.renameIds f = l :=
  congrArg Line.mk (Text.renameIds_of_eq h)

end Line

end SpirvLink
