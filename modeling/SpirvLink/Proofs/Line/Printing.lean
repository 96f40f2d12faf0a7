/-
  SpirvLink.Proofs.Line.Printing — an instruction is printed, and read again.

  An instruction is printed as its words with one space between them, and it is read off the
  words of its line alone (`reads_iff`). So the parts are read back if each of them is one word,
  what is defined is a name and, where nothing is, the words start no comment and are not those
  of a definition (`Legible.consistsOf`). The parts of every line are such parts, however it is
  spaced (`ConsistsOf.legible`). Therefore reading and printing are inverse: no other parts are
  read back, and a line that is printed anew says what it said and is then printed as it is
  (`printing_inverts_reading`).
-/

import SpirvLink.Proofs.Line.Reading

namespace SpirvLink.Line

variable {l : Line} {d : Option Text} {op id : Text} {operands : List Text}

/-! ## What a line says -/

/-- The line has this opcode and these operands. -/
structure Reads (l : Line) (op : Text) (operands : List Text) : Prop where
  opcode : l.opcode? = some op
  operands : l.operands = operands

/-- The line is an instruction with these parts. -/
structure ConsistsOf (l : Line) (d : Option Text) (op : Text) (operands : List Text) : Prop extends
    Reads l op operands where
  code : l.hasCode = true
  defined : l.defined? = d

theorem reads_iff : Reads l op operands ↔ l.hasCode = true ∧ Text.words l.instruction = op :: operands := by
  constructor
  · rintro ⟨hop, hoperands⟩
    have code : l.hasCode = true := by
      rw [opcode?] at hop
      split at hop
      · next code => exact code
      · cases hop
    rw [opcode?, if_pos code] at hop
    rw [Line.operands, if_pos code] at hoperands
    obtain ⟨rest, words⟩ := List.head?_eq_some_iff.mp hop
    rw [words, List.tail_cons] at hoperands
    exact ⟨code, by rw [words, hoperands]⟩
  · rintro ⟨code, words⟩
    exact ⟨by rw [opcode?, if_pos code, words]; rfl, by rw [Line.operands, if_pos code, words]; rfl⟩

theorem consistsOf_of_opcode (h : l.opcode? = some op) : l.ConsistsOf l.defined? op l.operands :=
  ⟨⟨h, rfl⟩, (reads_iff.mp ⟨h, rfl⟩).1, rfl⟩

/-! ## Parts that are read back -/

/-- Parts that can be told from a text: each is one word, and what is defined is a name. Where
    nothing is defined, the opcode starts no comment, and the words are not a definition. -/
structure Legible (d : Option Text) (op : Text) (operands : List Text) : Prop where
  name : ∀ id ∈ d, Text.IsName id
  words : ∀ w ∈ op :: operands, Text.IsWord w
  plain : d = none → op.head? ≠ some commentMarker ∧ ¬ Text.DefiningWords (op :: operands)

/-- What a line is read as is legible. -/
theorem ConsistsOf.legible (h : l.ConsistsOf d op operands) : Legible d op operands := by
  obtain ⟨code, words⟩ := reads_iff.mp h.toReads
  refine ⟨fun id hid => isName_of_defined (h.defined.trans hid), fun w hw => ?_, ?_⟩
  · exact Text.isWord_of_mem_words (words ▸ hw)
  · rintro rfl
    have cut : l.halves? = none := Option.map_eq_none_iff.mp h.defined
    rw [instruction_of_none cut, Text.words_trim] at words
    obtain ⟨u, vs, hu, plain⟩ := hasCode_iff.mp code
    obtain ⟨rfl, rfl⟩ := List.cons.inj (words.symm.trans hu)
    exact ⟨plain, words ▸ halves?_eq_none.mp cut⟩

theorem halves?_ofParts_some (hid : Text.IsName id) (op : Text) (operands : List Text) :
    (ofParts (some id) op operands).halves? = some (id ++ [' '], ' ' :: Text.unwords (op :: operands)) := by
  refine halves?_eq_some.mpr ⟨Text.cutAt_eq_some.mpr ⟨by simp [ofParts], ?_⟩, ?_⟩
  · simp [hid.noEquals]
  · rw [Text.trim_append_space hid.isWord]
    simpa [canDefine, hid.sigil, Text.hasBlank] using hid.noBlank

theorem defined?_ofParts_some (hid : Text.IsName id) (op : Text) (operands : List Text) :
    (ofParts (some id) op operands).defined? = some id := by
  rw [defined?, halves?_ofParts_some hid]
  exact congrArg some (Text.trim_append_space hid.isWord)

/-- Legible parts are read back from the line that they are printed on. -/
theorem Legible.consistsOf (h : Legible d op operands) : (ofParts d op operands).ConsistsOf d op operands := by
  have words : Text.words (Text.unwords (op :: operands)) = op :: operands := Text.words_unwords h.words
  cases d with
  | none =>
    obtain ⟨plain, other⟩ := h.plain rfl
    have cut : (ofParts none op operands).halves? = none := halves?_eq_none.mpr (words.symm ▸ other)
    have code : (ofParts none op operands).hasCode = true := hasCode_iff.mpr ⟨op, operands, words, plain⟩
    refine ⟨reads_iff.mpr ⟨code, ?_⟩, code, Option.map_eq_none_iff.mpr cut⟩
    rw [instruction_of_none cut, Text.words_trim]
    exact words
  | some id =>
    have name := h.name id rfl
    have cut := halves?_ofParts_some name op operands
    have code : (ofParts (some id) op operands).hasCode = true := hasCode_of_halves (by rw [cut]; rfl)
    refine ⟨reads_iff.mpr ⟨code, ?_⟩, code, defined?_ofParts_some name op operands⟩
    rw [instruction_of_halves cut, Text.words_trim, Text.words_blank isBlank_space, words]

theorem legible_of_plain (hd : ∀ id ∈ d, Text.IsName id) (hop : Text.IsWord op) (hcomment : op.head? ≠ some commentMarker)
    (hsigil : d = none → op.head? ≠ some Text.sigil) (ho : ∀ t ∈ operands, Text.IsWord t) : Legible d op operands :=
  ⟨hd, List.forall_mem_cons.mpr ⟨hop, ho⟩, fun absent => ⟨hcomment, fun definition => hsigil absent definition.1⟩⟩

/-! ## The words of the printed line -/

theorem text_ofParts (d : Option Text) (op : Text) (operands : List Text) : (ofParts d op operands).text =
    Text.unwords ((d.map fun id => [id, ['=']]).getD [] ++ op :: operands) := by
  cases d with
  | none => rfl
  | some id =>
    obtain ⟨s, hs⟩ := Text.unwords_cons op operands
    simp [ofParts, Text.unwords]

theorem Legible.isWord_printed (h : Legible d op operands) :
    ∀ w ∈ (d.map fun id => [id, ['=']]).getD [] ++ op :: operands, Text.IsWord w := by
  refine List.forall_mem_append.mpr ⟨fun w hw => ?_, h.words⟩
  cases d with
  | none => cases hw
  | some id =>
    have sign : Text.IsWord ['='] := by decide
    rcases List.mem_cons.mp hw with rfl | hw
    · exact (h.name _ rfl).isWord
    · exact List.mem_singleton.mp hw ▸ sign

/-! ## Edited instructions -/

/-- An opcode that can be put on any line: it starts no definition and no comment. -/
def IsOpcodeWord (op : Text) : Prop :=
  Text.IsWord op ∧ op.head? ≠ some Text.sigil ∧ op.head? ≠ some commentMarker

instance (op : Text) : Decidable (IsOpcodeWord op) :=
  inferInstanceAs (Decidable (_ ∧ _))

theorem IsOpcodeWord.legible (hop : IsOpcodeWord op) (ho : ∀ t ∈ operands, Text.IsWord t) (l : Line) :
    Legible l.defined? op operands :=
  legible_of_plain (fun _ hid => isName_of_defined hid) hop.1 hop.2.2 (fun _ => hop.2.1) ho

/-- With a new opcode and new operands, a line still defines what it did. -/
theorem consistsOf_ofParts (hop : IsOpcodeWord op) (ho : ∀ t ∈ operands, Text.IsWord t) (l : Line) :
    (ofParts l.defined? op operands).ConsistsOf l.defined? op operands :=
  (hop.legible ho l).consistsOf

/-! ## Lines printed anew -/

/-- The line printed from what it is read as, if it has an opcode. -/
def rebuilt? (l : Line) : Option Line :=
  l.opcode?.map fun op => ofParts l.defined? op l.operands

theorem ConsistsOf.rebuilt? (h : l.ConsistsOf d op operands) : l.rebuilt? = some (ofParts d op operands) := by
  rw [Line.rebuilt?, h.opcode, h.defined, h.operands]
  rfl

/-- A name or nothing, an opcode that starts no comment and, behind nothing, no identifier, and
    operands, all without blanks, are read back from the line that they are printed on; all
    the parts that are read back are the legible ones. Every line with an opcode can be printed
    from its own parts, has them again, and is then printed as it is. -/
theorem printing_inverts_reading :
    (∀ (d : Option Text) op operands, (∀ id ∈ d, Text.IsName id) → Text.IsWord op → op.head? ≠ some commentMarker →
      (d = none → op.head? ≠ some Text.sigil) → (∀ t ∈ operands, Text.IsWord t) →
      (ofParts d op operands).ConsistsOf d op operands) ∧
    (∀ d op operands, (ofParts d op operands).ConsistsOf d op operands ↔ Legible d op operands) ∧
    ∀ (l : Line) op, l.opcode? = some op →
      ∃ l' : Line, l.rebuilt? = some l' ∧ l'.ConsistsOf l.defined? op l.operands ∧ l'.rebuilt? = some l' := by
  refine ⟨fun d op operands hd hop hcomment hsigil ho => ?_, fun d op operands => ?_, fun l op hop => ?_⟩
  · exact (legible_of_plain hd hop hcomment hsigil ho).consistsOf
  · exact ⟨ConsistsOf.legible, Legible.consistsOf⟩
  · have parts := consistsOf_of_opcode hop
    have again := parts.legible.consistsOf
    exact ⟨_, parts.rebuilt?, again, again.rebuilt?⟩

/-- No blank before the equals sign, several between words, and a second sign. -/
def gluedLine : Line :=
  ⟨"\t%y=OpIAdd  %uint %x =1 ".toList⟩

/-- An opcode with a percent sign and words with equals signs, behind a name. -/
theorem printing_inverts_reading_glued :
    Text.IsName "%y".toList ∧ Text.IsWord "%z=".toList ∧ "%z=".toList.head? ≠ some commentMarker ∧
    (∀ t ∈ ["=", "%a=b"].map String.toList, Text.IsWord t) ∧
    (ofParts (some "%y".toList) "%z=".toList (["=", "%a=b"].map String.toList)).ConsistsOf
      (some "%y".toList) "%z=".toList (["=", "%a=b"].map String.toList) ∧
    gluedLine.opcode? = some "OpIAdd".toList ∧
    ∃ l', gluedLine.rebuilt? = some l' ∧ l'.text = "%y = OpIAdd %uint %x =1".toList ∧
      l'.ConsistsOf (some "%y".toList) "OpIAdd".toList (["%uint", "%x", "=1"].map String.toList) ∧
      l'.rebuilt? = some l' := by
  have name : Text.IsName "%y".toList := by decide
  have words : ∀ t ∈ ["=", "%a=b"].map String.toList, Text.IsWord t := by decide
  have hop : gluedLine.opcode? = some "OpIAdd".toList := by decide +kernel
  obtain ⟨printed, -, anew⟩ := printing_inverts_reading
  obtain ⟨l', rebuilt, parts, again⟩ := anew gluedLine _ hop
  have text : l' = ⟨"%y = OpIAdd %uint %x =1".toList⟩ := Option.some.inj (rebuilt.symm.trans (by decide +kernel))
  refine ⟨name, by decide, by decide, words, ?_, hop, l', rebuilt, congrArg Line.text text, ?_, again⟩
  · exact printed _ _ _ (fun _ hid => Option.some.inj hid ▸ name) (by decide) (by decide) (fun hd => by cases hd) words
  · have defined : gluedLine.defined? = some "%y".toList := by decide +kernel
    have operands : gluedLine.operands = ["%uint", "%x", "=1"].map String.toList := by decide +kernel
    rwa [defined, operands] at parts

end SpirvLink.Line
