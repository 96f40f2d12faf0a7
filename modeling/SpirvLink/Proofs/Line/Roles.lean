/-
  SpirvLink.Proofs.Line.Roles — the part that a line plays in a module.

  A reader sees of a line only whether its opcode is one that limits a region, a function or
  a body, and whether it is a type or constant. Two lines with the same answers have the
  same role (`SameRole`). Renaming (`Renamed.sameRole`) and trimming (`sameRole_trim`) keep
  the role, and where every line keeps its role, runs still close (`Closes.of_roles`).
-/

import Mathlib.Data.List.Forall2
import SpirvLink.Proofs.Line.Printing
import SpirvLink.Proofs.Module.Regions

namespace SpirvLink

/-- The opcodes that limit a region, a function or a body. -/
def Opcode.limits : List Text :=
  decorations ++ [function, functionEnd, ret, returnValue, functionCall]

/-- As opcodes, the words say the same about regions. -/
structure Text.Alike (w w' : Text) : Prop where
  limit : ∀ op ∈ Opcode.limits, w' = op ↔ w = op
  typed : Opcode.isTypeOrConstant w' = Opcode.isTypeOrConstant w

namespace Line

variable {l l' l'' : Line} {f : Text → Text} {op : Text}

structure SameRole (l l' : Line) : Prop where
  opcode : ∀ op ∈ Opcode.limits, l'.opcode? = some op ↔ l.opcode? = some op
  typed : l'.isTypeOrConstant = l.isTypeOrConstant

namespace SameRole

theorem refl (l : Line) : SameRole l l :=
  ⟨fun _ _ => Iff.rfl, rfl⟩

theorem trans (h : SameRole l l') (h' : SameRole l' l'') : SameRole l l'' :=
  ⟨fun op hop => (h'.opcode op hop).trans (h.opcode op hop), h'.typed.trans h.typed⟩

theorem hasOpcode (h : SameRole l l') (hop : op ∈ Opcode.limits) : l'.hasOpcode op = l.hasOpcode op := by
  rw [Bool.eq_iff_iff, Line.hasOpcode, Line.hasOpcode, beq_iff_eq, beq_iff_eq]
  exact h.opcode op hop

theorem startsFunction (h : SameRole l l') : l'.startsFunction = l.startsFunction :=
  h.hasOpcode (by decide)

theorem isCall (h : SameRole l l') : l'.isCall = l.isCall :=
  h.hasOpcode (by decide)

/-- A test whether the opcode is one of some limits. -/
theorem any_limits (h : SameRole l l') {p : Text → Bool} (hp : ∀ op, p op = true → op ∈ Opcode.limits) :
    l'.opcode?.any p = l.opcode?.any p := by
  rw [Bool.eq_iff_iff, Option.any_eq_true, Option.any_eq_true]
  constructor
  · rintro ⟨op, hop, hpop⟩
    exact ⟨op, (h.opcode op (hp op hpop)).mp hop, hpop⟩
  · rintro ⟨op, hop, hpop⟩
    exact ⟨op, (h.opcode op (hp op hpop)).mpr hop, hpop⟩

theorem isReturn (h : SameRole l l') : l'.isReturn = l.isReturn := by
  refine h.any_limits fun op hop => ?_
  rcases (Bool.or_eq_true_iff.mp hop).imp eq_of_beq eq_of_beq with rfl | rfl <;> decide

theorem isDecoration (h : SameRole l l') : l'.isDecoration = l.isDecoration :=
  h.any_limits fun _ hop => List.mem_append_left _ (List.contains_iff_mem.mp hop)

theorem endsDecorations (h : SameRole l l') : l'.endsDecorations = l.endsDecorations := by
  rw [Line.endsDecorations, Line.endsDecorations, h.typed, h.startsFunction]

theorem endsHeader (h : SameRole l l') : l'.endsHeader = l.endsHeader := by
  rw [Line.endsHeader, Line.endsHeader, h.isDecoration, h.endsDecorations]

end SameRole

/-- Where the words of the instruction are alike as opcodes, the lines have the same role. -/
theorem sameRole_of_words (code : l'.hasCode = l.hasCode)
    (words : List.Forall₂ Text.Alike (Text.words l.instruction) (Text.words l'.instruction)) : SameRole l l' := by
  have none_or : (l.opcode? = none ∧ l'.opcode? = none) ∨
      ∃ w w', l.opcode? = some w ∧ l'.opcode? = some w' ∧ Text.Alike w w' := by
    rw [opcode?, opcode?, code]
    generalize Text.words l.instruction = ws at words
    generalize Text.words l'.instruction = ws' at words
    by_cases hc : l.hasCode = true
    · rw [if_pos hc, if_pos hc]
      cases words with
      | nil => exact Or.inl ⟨rfl, rfl⟩
      | cons h _ => exact Or.inr ⟨_, _, rfl, rfl, h⟩
    · rw [if_neg hc, if_neg hc]
      exact Or.inl ⟨rfl, rfl⟩
  rcases none_or with ⟨h, h'⟩ | ⟨w, w', h, h', alike⟩
  · exact ⟨fun op _ => by rw [h, h'], by rw [isTypeOrConstant, isTypeOrConstant, h, h']⟩
  · refine ⟨fun op hop => ?_, ?_⟩
    · rw [h, h', Option.some_inj, Option.some_inj]
      exact alike.limit op hop
    · rw [isTypeOrConstant, isTypeOrConstant, h, h']
      exact alike.typed

theorem sameRole_trim (l : Line) : SameRole l l.trim :=
  ⟨fun op _ => by rw [opcode?_trim], by rw [isTypeOrConstant, isTypeOrConstant, opcode?_trim]⟩

end Line

/-! ## Renamed lines -/

/-- A renaming changes nothing before the first percent sign. -/
theorem Text.Keeps.isPrefixOf {f : Text → Text} (hf : Text.Keeps f) : ∀ {p w : Text}, Text.sigil ∉ p →
    p.isPrefixOf (Text.renameIds f w) = p.isPrefixOf w
  | [], _, _ => by rw [List.isPrefixOf_nil_left, List.isPrefixOf_nil_left]
  | c :: p, [], _ => rfl
  | c :: p, d :: w, hp => by
    have hc : c ≠ Text.sigil := fun e => hp (e ▸ List.mem_cons_self ..)
    by_cases hd : d = Text.sigil
    · have first := hf.head? (d :: w)
      rw [List.head?_cons, hd] at first
      obtain ⟨v, hv⟩ := List.head?_eq_some_iff.mp first
      rw [hd, hv, List.isPrefixOf_cons_cons, List.isPrefixOf_cons_cons, beq_eq_false_iff_ne.mpr hc, Bool.false_and, Bool.false_and]
    · have rest : Text.renameIds f (d :: w) = d :: Text.renameIds f w := by
        rw [Text.renameIds, Text.segments_other hd]
        rfl
      rw [rest, List.isPrefixOf_cons_cons, List.isPrefixOf_cons_cons, hf.isPrefixOf fun hm => hp (List.mem_cons_of_mem _ hm)]

theorem Text.Keeps.alike {f : Text → Text} (hf : Text.Keeps f) (w : Text) : Text.Alike w (Text.renameIds f w) := by
  have limits : ∀ op ∈ Opcode.limits, Text.sigil ∉ op := by decide
  have stems : ∀ stem ∈ Opcode.definitionStems, Text.sigil ∉ stem := by decide
  refine ⟨fun op hop => hf.eq_iff (limits op hop), ?_⟩
  rw [Opcode.isTypeOrConstant, Opcode.isTypeOrConstant, Bool.eq_iff_iff, List.any_eq_true, List.any_eq_true]
  exact exists_congr fun stem => and_congr_right fun hstem => by rw [hf.isPrefixOf (stems stem hstem)]

theorem Line.Renamed.sameRole {f : Text → Text} {l l' : Line} (h : Line.Renamed f l l') (hf : Text.Keeps f) :
    Line.SameRole l l' := by
  refine Line.sameRole_of_words h.code ?_
  rw [h.words, List.forall₂_map_right_iff, List.forall₂_same]
  exact fun w _ => hf.alike w

/-! ## Lines that stay on their own -/

namespace Line

variable {l l' l'' : Line} {f : Text → Text} {op : Text}

/-- The second line has the role of the first, defines the same, and can be printed where
    the first one can. -/
structure Stays (l l' : Line) : Prop where
  role : SameRole l l'
  defined : l'.defined? = l.defined?
  trimmed : l.trim = l → l'.trim = l'
  oneLine : '\n' ∉ l.text → '\n' ∉ l'.text

theorem Stays.refl (l : Line) : Stays l l :=
  ⟨.refl l, rfl, id, id⟩

theorem Stays.trans (h : Stays l l') (h' : Stays l' l'') : Stays l l'' :=
  ⟨h.role.trans h'.role, h'.defined.trans h.defined, fun ht => h'.trimmed (h.trimmed ht),
    fun hl => h'.oneLine (h.oneLine hl)⟩

theorem trim_renameOperands (hf : Text.Keeps f) (ht : l.trim = l) : (l.renameOperands f).trim = l.renameOperands f := by
  have words : ∀ {s : Text}, ∀ id ∈ Text.identifiers s, Text.IsWord (f id) :=
    fun id hid => hf.isWord (Text.isIdent_of_mem hid)
  have start : Text.trim l.text = l.text := congrArg Line.text ht
  cases hs : l.halves? with
  | none =>
    rw [renameOperands_of_none hs]
    exact congrArg Line.mk (Text.trim_renameIds words start)
  | some h =>
    obtain ⟨before, after⟩ := h
    obtain ⟨htext, -⟩ := Text.cutAt_eq_some.mp (halves?_eq_some.mp hs).1
    obtain ⟨first, last⟩ := Text.trim_eq_self_iff.mp start
    -- What follows the equals sign is renamed as a trimmed text that starts with it.
    have tail : Text.trim ('=' :: after) = '=' :: after := by
      refine Text.trim_eq_self_iff.mpr ⟨fun c hc => ?_, fun c hc => last c ?_⟩
      · cases hc
        exact Text.not_blank_equals
      · rw [htext, List.getLast?_append, hc]
        rfl
    have renamed : Text.renameIds f ('=' :: after) = '=' :: Text.renameIds f after := by
      rw [Text.renameIds, Text.segments_other (by decide)]
      rfl
    have ends := (Text.trim_eq_self_iff.mp (Text.trim_renameIds words tail)).2
    rw [renamed] at ends
    refine congrArg Line.mk (Text.trim_of_ends (fun c hc => first c ?_) fun c hc => ends c ?_)
    · rw [text_renameOperands hs] at hc
      rw [htext]
      cases before with
      | nil => exact hc
      | cons d before => exact hc
    · rwa [text_renameOperands hs, List.getLast?_append_of_ne_nil _ (List.cons_ne_nil _ _)] at hc

theorem newline_not_mem_renameIds {s : Text} (hf : Text.Keeps f) (hs : '\n' ∉ s) : '\n' ∉ Text.renameIds f s := by
  intro hm
  rcases Text.mem_renameIds hm with ⟨id, hid, hc⟩ | hm
  · have blank := (hf.isWord (Text.isIdent_of_mem hid)).2 _ hc
    exact absurd blank (by decide)
  · exact hs hm

theorem stays_renameOperands (hf : Text.Keeps f) (l : Line) : Stays l (l.renameOperands f) := by
  refine ⟨(renamed_renameOperands hf).sameRole hf, defined?_renameOperands hf l, trim_renameOperands hf, fun hl => ?_⟩
  cases hs : l.halves? with
  | none =>
    rw [renameOperands_of_none hs]
    exact newline_not_mem_renameIds hf hl
  | some h =>
    obtain ⟨htext, -⟩ := Text.cutAt_eq_some.mp (halves?_eq_some.mp hs).1
    rw [htext] at hl
    rw [text_renameOperands hs]
    simp only [List.mem_append, List.mem_cons, not_or] at hl ⊢
    exact ⟨hl.1, hl.2.1, newline_not_mem_renameIds hf hl.2.2⟩

/-- An instruction that is put together anew, with an opcode that says the same about regions. -/
theorem stays_ofParts (hop : IsOpcodeWord op) {operands : List Text} (ho : ∀ t ∈ operands, Text.IsWord t)
    {w : Text} (hw : l.opcode? = some w) (alike : Text.Alike w op) : Stays l (ofParts l.defined? op operands) := by
  have made := consistsOf_ofParts hop ho l
  have parts := (hop.legible ho l).isWord_printed
  refine ⟨⟨fun op' hop' => ?_, ?_⟩, made.defined, fun _ => ?_, fun _ hm => ?_⟩
  · rw [made.opcode, hw, Option.some_inj, Option.some_inj]
    exact alike.limit op' hop'
  · rw [isTypeOrConstant, isTypeOrConstant, made.opcode, hw]
    exact alike.typed
  · rw [trim, text_ofParts, Text.trim_unwords parts, ← text_ofParts]
  · rw [text_ofParts] at hm
    exact absurd (Text.blank_of_mem_unwords parts hm (by decide)) (by decide)

end Line

namespace Module

open Line

variable {ls ls' : List Line}

/-! ## Runs of lines with the same roles -/

theorem closes_cons {l : Line} : Closes (l :: ls) ↔ (ls = [] ∧ l.hasOpcode Opcode.functionEnd = true) ∨
    (l.hasOpcode Opcode.functionEnd = false ∧ Closes ls) := by
  constructor
  · rintro ⟨inner, last, heq, hinner, hlast⟩
    cases inner with
    | nil =>
      cases heq
      exact Or.inl ⟨rfl, hlast⟩
    | cons k inner =>
      cases heq
      exact Or.inr ⟨hinner _ (List.mem_cons_self ..), inner, last, rfl,
        fun j hj => hinner j (List.mem_cons_of_mem _ hj), hlast⟩
  · rintro (⟨rfl, hl⟩ | ⟨hl, inner, last, rfl, hinner, hlast⟩)
    · exact ⟨[], l, rfl, fun _ h => (by cases h), hl⟩
    · exact ⟨l :: inner, last, rfl, List.forall_mem_cons.mpr ⟨hl, hinner⟩, hlast⟩

theorem Closes.append (hls : ∀ l ∈ ls, l.hasOpcode Opcode.functionEnd = false) (h : Closes ls') : Closes (ls ++ ls') := by
  obtain ⟨inner, last, rfl, hinner, hlast⟩ := h
  refine ⟨ls ++ inner, last, (List.append_assoc ..).symm, fun l hl => ?_, hlast⟩
  rcases List.mem_append.mp hl with hl | hl
  · exact hls l hl
  · exact hinner l hl

theorem Closes.of_roles (h : Closes ls) (roles : List.Forall₂ SameRole ls ls') : Closes ls' := by
  induction roles with
  | nil => exact h
  | @cons l l' ls ls' hl rest ih =>
    rw [closes_cons] at h ⊢
    rw [hl.hasOpcode (by decide)]
    exact h.imp (fun h => ⟨List.forall₂_nil_left_iff.mp (h.1 ▸ rest), h.2⟩) fun h => ⟨h.1, ih h.2⟩

end Module

end SpirvLink
