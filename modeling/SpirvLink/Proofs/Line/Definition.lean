/-
  SpirvLink.Proofs.Line.Definition — whether what a line defines is one of the identifiers on it.

  What a line defines is cut off at its first equals sign, but an identifier ends only at a
  blank or a quotation mark. The two agree where the line sets off its definition: it is one
  identifier, and a blank stands before the sign (`SetsOff.ids_eq`). Elsewhere an identifier
  takes the sign and goes on behind it, or what is defined holds a quotation mark and is no
  identifier. Then the definition is not counted, and renaming what the line defines renames
  uses alone (`reads_definition_iff`).
-/

import SpirvLink.Proofs.Line.EqualsFree

namespace SpirvLink

open Text

namespace Text

variable {f : Text → Text} {blanks name s : Text} {gs : List Segment}

/-! ## Segments up to the first identifier -/

theorem sigil_not_mem_of_blank (h : ∀ c ∈ s, isBlank c = true) : sigil ∉ s :=
  fun hm => absurd (h _ hm) (by decide)

theorem flatMap_rename_other (f : Text → Text) (s : Text) : (s.map Segment.other).flatMap (fun g => (g.rename f).text) = s := by
  rw [List.flatMap_map]
  exact List.flatMap_singleton' s

theorem identifiers_of_first (h : segments s = blanks.map .other ++ .ident name :: gs) :
    identifiers s = name :: gs.filterMap Segment.ident? := by
  rw [identifiers, h, List.filterMap_append, filterMap_ident?_other]
  rfl

theorem renameIds_of_first (f : Text → Text) (h : segments s = blanks.map .other ++ .ident name :: gs) :
    renameIds f s = blanks ++ (f name ++ gs.flatMap fun g => (g.rename f).text) := by
  rw [renameIds, h, List.flatMap_append, flatMap_rename_other, List.flatMap_cons]
  rfl

/-- The identifiers behind an open identifier are the last ones of the text that it runs into. -/
theorem identifiers_scan_true (s : Text) : (scan true s).2.filterMap Segment.ident? <:+ identifiers s := by
  induction s with
  | nil => exact List.suffix_rfl
  | cons c s ih =>
    rw [scan_true_cons, identifiers, segments_cons]
    by_cases hc : endsIdent c = true
    · rewrite [if_pos hc, if_neg (ne_sigil_of_endsIdent hc)]
      exact List.suffix_rfl
    · rw [if_neg hc]
      split
      · exact List.suffix_cons ..
      · exact ih

end Text

namespace Line

variable {l : Line} {id new blanks spaces before after : Text} {c : Char}

/-- The line defines one identifier, and a blank stands between it and the equals sign. -/
def SetsOff (l : Line) : Prop :=
  ∃ h ∈ l.halves?, IsIdent (Text.trim h.1) ∧ h.1.getLast?.any isBlank = true

/-! ## The parts of a definition -/

/-- A line with its definition between blanks, the equals sign behind them. -/
structure Parts (l : Line) (blanks id spaces after : Text) : Prop where
  text : l.text = blanks ++ (id ++ spaces) ++ '=' :: after
  name : IsName id
  before : ∀ c ∈ blanks, isBlank c = true
  behind : ∀ c ∈ spaces, isBlank c = true

theorem Parts.halves? (h : Parts l blanks id spaces after) : l.halves? = some (blanks ++ (id ++ spaces), after) ∧
    Text.trim (blanks ++ (id ++ spaces)) = id := by
  have words : Text.words (blanks ++ (id ++ spaces)) = [id] :=
    words_eq_cons.mpr ⟨blanks, spaces, rfl, h.before, h.name.isWord, fun c hc => h.behind c (List.mem_of_mem_head? hc),
      words_all_blank h.behind⟩
  have noEquals : '=' ∉ blanks ++ (id ++ spaces) := by
    simp only [List.mem_append, not_or]
    exact ⟨equals_not_mem_of_blank h.before, h.name.noEquals, equals_not_mem_of_blank h.behind⟩
  exact ⟨halves?_eq_some.mpr ⟨cutAt_eq_some.mpr ⟨h.text, noEquals⟩, canDefine_trim_iff.mpr ⟨id, words, h.name.sigil⟩⟩,
    trim_eq_of_words words⟩

theorem Parts.defined? (h : Parts l blanks id spaces after) : l.defined? = some id := by
  rw [Line.defined?, h.halves?.1]
  exact congrArg some h.halves?.2

theorem Parts.rhsIds (h : Parts l blanks id spaces after) : l.rhsIds = identifiers after := by
  rw [Line.rhsIds, rhs?, h.halves?.1]
  exact identifiers_trim after

theorem exists_parts (hd : l.defined? = some id) : ∃ blanks spaces after, Parts l blanks id spaces after := by
  obtain ⟨⟨before, after⟩, hs, -⟩ := Option.map_eq_some_iff.mp hd
  obtain ⟨blanks, spaces, rfl, hb, -, -, hspaces⟩ := words_eq_cons.mp (EqualsFree.words_before hs hd)
  exact ⟨blanks, spaces, after, (cutAt_eq_some.mp (halves?_eq_some.mp hs).1).1, isName_of_defined hd, hb,
    words_eq_nil_iff.mp hspaces⟩

theorem Parts.setsOff_iff (h : Parts l blanks id spaces after) : l.SetsOff ↔ IsIdent id ∧ spaces ≠ [] := by
  have last : (blanks ++ (id ++ spaces)).getLast?.any isBlank = true ↔ spaces ≠ [] := by
    have some := List.getLast?_eq_some_getLast h.name.isWord.1
    have name := h.name.noBlank _ (List.getLast_mem h.name.isWord.1)
    rcases List.eq_nil_or_concat spaces with rfl | ⟨spaces, c, rfl⟩
    · simp [some, name]
    · simp [h.behind c (by simp)]
  constructor
  · rintro ⟨halves, hs, hid, hblank⟩
    obtain rfl := Option.some.inj (h.halves?.1.symm.trans hs)
    exact ⟨h.halves?.2 ▸ hid, last.mp hblank⟩
  · rintro ⟨hid, hne⟩
    exact ⟨_, h.halves?.1, h.halves?.2.symm ▸ hid, last.mpr hne⟩

/-! ## Definitions that are set off -/

theorem Parts.segments_spaced (h : Parts l blanks id (c :: spaces) after) (hid : IsIdent id) :
    segments l.text = blanks.map .other ++ .ident id :: segments (c :: spaces ++ '=' :: after) := by
  have stop : stops (c :: spaces ++ '=' :: after) := stops_cons (endsIdent_of_isBlank (h.behind c (List.mem_cons_self ..))) _
  rw [h.text, List.append_assoc, List.append_assoc, segments_append_of_no_sigil (sigil_not_mem_of_blank h.before),
    segments_ident hid stop]

/-- What stands between the definition and its right-hand side stays. -/
theorem Parts.rest_spaced (h : Parts l blanks id spaces after) :
    segments (spaces ++ '=' :: after) = (spaces ++ ['=']).map .other ++ segments after := by
  have plain : sigil ∉ spaces ++ ['='] := by
    rw [List.mem_append, not_or]
    exact ⟨sigil_not_mem_of_blank h.behind, by decide⟩
  rw [← segments_append_of_no_sigil plain, List.append_assoc, List.singleton_append]

/-- What a line sets off is the first identifier on it. -/
theorem SetsOff.ids_eq (h : l.SetsOff) (hd : l.defined? = some id) : l.ids = id :: l.rhsIds := by
  obtain ⟨blanks, spaces, after, parts⟩ := exists_parts hd
  obtain ⟨hid, hne⟩ := parts.setsOff_iff.mp h
  obtain ⟨c, spaces, rfl⟩ := List.exists_cons_of_ne_nil hne
  rw [parts.rhsIds, ids, identifiers_of_first (parts.segments_spaced hid), parts.rest_spaced, List.filterMap_append,
    filterMap_ident?_other, List.nil_append]
  rfl

theorem SetsOff.defined?_replaceId (h : l.SetsOff) (hd : l.defined? = some id) (hnew : IsName new) :
    (l.replaceId id new).defined? = some new := by
  obtain ⟨blanks, spaces, after, parts⟩ := exists_parts hd
  obtain ⟨hid, hne⟩ := parts.setsOff_iff.mp h
  obtain ⟨c, spaces, rfl⟩ := List.exists_cons_of_ne_nil hne
  have renamed : (l.replaceId id new).text = blanks ++ (new ++ c :: spaces) ++ '=' :: Text.renameIds (only id new) after := by
    show Text.renameIds (only id new) l.text = _
    rw [renameIds_of_first _ (parts.segments_spaced hid), parts.rest_spaced, List.flatMap_append, flatMap_rename_other,
      only, if_pos rfl]
    simp [Text.renameIds]
  exact Parts.defined? ⟨renamed, hnew, parts.before, parts.behind⟩

/-! ## Definitions that are not -/

/-- An identifier that the equals sign follows at once takes the sign and goes on behind it. -/
theorem Parts.segments_glued (h : Parts l blanks id [] after) (hid : IsIdent id) :
    segments l.text = blanks.map .other ++ .ident (id ++ '=' :: (scan true after).1) :: (scan true after).2 := by
  obtain ⟨c, w, rfl⟩ := List.exists_cons_of_ne_nil hid.ne_nil
  have inner : ∀ d ∈ w ++ ['='], endsIdent d = false := by
    intro d hd
    rcases List.mem_append.mp hd with hd | hd
    · exact hid.2 d (List.mem_cons_of_mem _ hd)
    · obtain rfl := List.mem_singleton.mp hd
      decide
  have first : c = sigil := by simpa using hid.1
  have scanned := scan_true_append inner after
  rw [List.append_assoc, List.singleton_append] at scanned
  rw [h.text, List.append_nil, List.append_assoc, segments_append_of_no_sigil (sigil_not_mem_of_blank h.before),
    List.cons_append, segments_cons, if_pos first, scanned]
  simp

/-- A definition that is not set off is no identifier, or is glued to the sign. -/
theorem Parts.not_setsOff (h : Parts l blanks id spaces after) (hoff : ¬ l.SetsOff) : ¬ IsIdent id ∨ IsIdent id ∧ spaces = [] := by
  rw [h.setsOff_iff] at hoff
  tauto

/-- Every occurrence that is counted is a use. -/
theorem countId_le_of_not_setsOff (hoff : ¬ l.SetsOff) (hd : l.defined? = some id) : l.countId id ≤ l.rhsIds.count id := by
  obtain ⟨blanks, spaces, after, parts⟩ := exists_parts hd
  rcases parts.not_setsOff hoff with hid | ⟨hid, rfl⟩
  · have absent : id ∉ l.ids := fun hm => hid (isIdent_of_mem hm)
    rw [countId, List.count_eq_zero.mpr absent]
    exact Nat.zero_le _
  · have longer : id ++ '=' :: (scan true after).1 ≠ id := by simp
    rw [countId, ids, identifiers_of_first (parts.segments_glued hid), List.count_cons_of_ne longer, parts.rhsIds]
    exact (identifiers_scan_true after).sublist.count_le id

/-- Renaming what the line defines leaves the definition. -/
theorem defined?_replaceId_of_not_setsOff (hoff : ¬ l.SetsOff) (hd : l.defined? = some id) (new : Text) :
    (l.replaceId id new).defined? = some id := by
  obtain ⟨blanks, spaces, after, parts⟩ := exists_parts hd
  rcases parts.not_setsOff hoff with hid | ⟨hid, rfl⟩
  · have same : l.replaceId id new = l := congrArg Line.mk
      (Text.renameIds_of_eq fun i hi => if_neg fun he : i = id => hid (he ▸ isIdent_of_mem hi))
    rw [same, hd]
  · have longer : id ++ '=' :: (scan true after).1 ≠ id := by simp
    have renamed := renameIds_of_first (only id new) (parts.segments_glued hid)
    rw [only, if_neg longer] at renamed
    have parts' : Parts (l.replaceId id new) blanks id []
        ((scan true after).1 ++ (scan true after).2.flatMap fun g => (g.rename (only id new)).text) :=
      ⟨renamed.trans (by simp), parts.name, parts.before, parts.behind⟩
    exact parts'.defined?

/-- The identifiers of a line start with what it defines, this is counted once more than it is
    used, and renaming it renames the definition, exactly if the line sets its definition off. -/
theorem reads_definition_iff (hd : l.defined? = some id) :
    (l.ids = id :: l.rhsIds ↔ l.SetsOff) ∧ (l.countId id = l.rhsIds.count id + 1 ↔ l.SetsOff) ∧
      ∀ new, IsName new → (l.SetsOff → (l.replaceId id new).defined? = some new) ∧
        (¬ l.SetsOff → (l.replaceId id new).defined? = some id) := by
  have counted : l.ids = id :: l.rhsIds → l.countId id = l.rhsIds.count id + 1 := fun h => by
    rw [countId, h, List.count_cons_self]
  have off : l.countId id = l.rhsIds.count id + 1 → l.SetsOff := fun h => by
    by_contra hoff
    have := countId_le_of_not_setsOff hoff hd
    omega
  exact ⟨⟨fun h => off (counted h), fun h => h.ids_eq hd⟩, ⟨off, fun h => counted (h.ids_eq hd)⟩,
    fun new hnew => ⟨fun h => h.defined?_replaceId hd hnew, fun h => defined?_replaceId_of_not_setsOff h hd new⟩⟩

/-- A blank before the sign alone, and a definition that is used too. -/
def loopLine : Line :=
  ⟨"%y =OpIAdd %uint %x %y".toList⟩

theorem reads_definition_loop : loopLine.defined? = some "%y".toList ∧ loopLine.ids = "%y".toList :: loopLine.rhsIds ∧
    loopLine.countId "%y".toList = loopLine.rhsIds.count "%y".toList + 1 ∧
    (loopLine.replaceId "%y".toList "%z".toList).defined? = some "%z".toList := by
  have hd : loopLine.defined? = some "%y".toList := by decide +kernel
  have off : loopLine.SetsOff := ⟨("%y ".toList, "OpIAdd %uint %x %y".toList), by decide +kernel, by decide, by decide⟩
  have name : IsName "%z".toList := ⟨by decide, forall_of_all (by decide), by decide⟩
  obtain ⟨ids, count, renames⟩ := reads_definition_iff hd
  exact ⟨hd, ids.mpr off, count.mpr off, (renames _ name).1 off⟩

/-- Without a blank before the sign, the opcode is in the identifier and the definition stays. -/
theorem reads_definition_glued :
    (⟨"%y=OpIAdd %uint %x %x".toList⟩ : Line).defined? = some "%y".toList ∧
      (⟨"%y=OpIAdd %uint %x %x".toList⟩ : Line).ids = ["%y=OpIAdd", "%uint", "%x", "%x"].map String.toList ∧
      (⟨"%y=OpIAdd %uint %x %x".toList⟩ : Line).countId "%y".toList = 0 ∧
      (⟨"%y=OpIAdd %uint %x %x".toList⟩ : Line).replaceId "%y".toList "%z".toList = ⟨"%y=OpIAdd %uint %x %x".toList⟩ := by
  decide +kernel

end Line

end SpirvLink
