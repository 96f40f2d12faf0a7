/-
  SpirvLink.Proofs.Line.Replacing — one identifier replaced on a line that defines another.

  An identifier without an equals sign, replaced by one without, leaves the first equals sign
  of a line where it was, also where that sign is part of another identifier
  (`Text.renameIds_equals`). So the line defines something still, has the opcode it had, and
  uses the identifiers it used, the replaced one replaced (`Line.replaceId_reads`).
-/

import SpirvLink.Proofs.Line.Reading

namespace SpirvLink

namespace Text

variable {f : Text → Text}

/-- A renaming keeps every identifier with an equals sign, and puts in none with one. -/
structure SparesEquals (f : Text → Text) : Prop where
  same : ∀ id, '=' ∈ id → f id = id
  free : ∀ id, '=' ∉ id → '=' ∉ f id

theorem sparesEquals_only {old new : Text} (hold : '=' ∉ old) (hnew : '=' ∉ new) : SparesEquals (only old new) := by
  constructor
  · intro id hid
    exact if_neg fun he : id = old => hold (he ▸ hid)
  · exact fun id hid => only_of (P := ('=' ∉ ·)) hnew hid

theorem rename_of_no_sigil : ∀ {gs : List Segment}, (∀ id, .ident id ∈ gs → sigil ∈ id) →
    sigil ∉ gs.flatMap Segment.text → gs.flatMap (fun g => (g.rename f).text) = gs.flatMap Segment.text
  | [], _, _ => rfl
  | g :: gs, hid, hs => by
    rw [List.flatMap_cons, List.mem_append, not_or] at hs
    rw [List.flatMap_cons, List.flatMap_cons,
      rename_of_no_sigil (fun id h => hid id (List.mem_cons_of_mem _ h)) hs.2]
    cases g with
    | ident id => exact absurd (hid id (List.mem_cons_self ..)) hs.1
    | other c => rfl

/-- The first equals sign of the segments stays where it is, and so does what follows it
    without a percent sign. -/
theorem rename_equals (hf : SparesEquals f) {y : Text} (hy : sigil ∉ y) : ∀ {gs : List Segment} {x : Text},
    (∀ id, .ident id ∈ gs → sigil ∈ id) → '=' ∉ x → gs.flatMap Segment.text = x ++ '=' :: y →
    ∃ x', '=' ∉ x' ∧ gs.flatMap (fun g => (g.rename f).text) = x' ++ '=' :: y
  | [], x, _, _, h => by simp at h
  | g :: gs, x, hid, hx, h => by
    have hid' : ∀ id, .ident id ∈ gs → sigil ∈ id := fun id h => hid id (List.mem_cons_of_mem _ h)
    rw [List.flatMap_cons] at h ⊢
    by_cases hg : '=' ∈ g.text
    · -- The sign is in this segment, which is not renamed, and no identifier starts behind it.
      have kept : (g.rename f).text = g.text := by
        cases g with
        | ident id => exact hf.same id hg
        | other c => rfl
      obtain ⟨z, hgz, hyz⟩ : ∃ z, g.text = x ++ '=' :: z ∧ y = z ++ gs.flatMap Segment.text := by
        rcases List.append_eq_append_iff.mp h with ⟨z, hxz, -⟩ | ⟨z, hgz, hz⟩
        · exact absurd (hxz ▸ List.mem_append_left _ hg) hx
        · cases z with
          | nil =>
            rw [List.append_nil] at hgz
            exact absurd (hgz ▸ hg) hx
          | cons c z =>
            cases hz
            exact ⟨z, hgz, rfl⟩
      have rest : sigil ∉ gs.flatMap Segment.text := fun hm => hy (hyz ▸ List.mem_append_right _ hm)
      exact ⟨x, hx, by rw [kept, rename_of_no_sigil hid' rest, h]⟩
    · obtain ⟨z, rfl, hz⟩ : ∃ z, x = g.text ++ z ∧ gs.flatMap Segment.text = z ++ '=' :: y := by
        rcases List.append_eq_append_iff.mp h with ⟨z, hxz, hz⟩ | ⟨z, hgz, hz⟩
        · exact ⟨z, hxz, hz⟩
        · cases z with
          | nil => exact ⟨[], by simpa using hgz.symm, by simpa using hz.symm⟩
          | cons c z =>
            cases hz
            exact absurd (hgz ▸ List.mem_append_right _ (List.mem_cons_self ..)) hg
      obtain ⟨z', hz', renamed⟩ := rename_equals hf hy hid' (fun hm => hx (List.mem_append_right _ hm)) hz
      refine ⟨(g.rename f).text ++ z', ?_, by rw [renamed, List.append_assoc]⟩
      rw [List.mem_append, not_or]
      refine ⟨?_, hz'⟩
      cases g with
      | ident id => exact hf.free id hg
      | other c => exact hg

theorem renameIds_equals (hf : SparesEquals f) {x y : Text} (hx : '=' ∉ x) (hy : sigil ∉ y) :
    ∃ x', '=' ∉ x' ∧ renameIds f (x ++ '=' :: y) = x' ++ '=' :: y :=
  rename_equals hf hy (fun _ hid => List.mem_of_mem_head? (isIdent_of_mem (mem_identifiers.mpr hid)).1) hx
    (flatMap_segments _)

/-- What defined something still does. -/
theorem SparesEquals.definingWords (hf : SparesEquals f) (keeps : Keeps f) {ws : List Text} (h : DefiningWords ws) :
    DefiningWords (ws.map (renameIds f)) := by
  cases ws with
  | nil => exact h
  | cons u vs =>
    obtain ⟨hh, hsign⟩ := h
    refine ⟨(keeps.head? u).trans hh, hsign.imp (fun hu => ?_) ?_⟩
    · rw [← flatMap_segments u] at hu
      obtain ⟨g, hg, hc⟩ := List.mem_flatMap.mp hu
      refine List.mem_flatMap.mpr ⟨g, hg, ?_⟩
      cases g with
      | ident id =>
        show '=' ∈ f id
        rwa [hf.same id hc]
      | other c => exact hc
    · rintro ⟨v, hv, hvh⟩
      refine ⟨renameIds f v, ?_, (keeps.head? v).trans hvh⟩
      rw [List.head?_map, hv]
      rfl

end Text

namespace Line

variable {l : Line} {f : Text → Text} {op before after : Text}

/-- A renaming that spares equals signs keeps where the line is cut. -/
theorem halves?_renameIds_spared (hf : Text.SparesEquals f) (keeps : Text.Keeps f) {blanks rest : Text}
    (hs : l.halves? = some (before, blanks ++ (op ++ rest))) (hb : ∀ c ∈ blanks, isBlank c = true)
    (hop : Text.sigil ∉ op) (hrest : Text.Breaks rest) :
    ∃ before', (l.renameIds f).halves? = some (before', blanks ++ (op ++ Text.renameIds f rest)) := by
  obtain ⟨hcut, -⟩ := halves?_eq_some.mp hs
  obtain ⟨htext, hbefore⟩ := Text.cutAt_eq_some.mp hcut
  have plain : Text.sigil ∉ blanks ++ op := by
    rw [List.mem_append, not_or]
    exact ⟨fun hm => absurd (hb _ hm) (by decide), hop⟩
  obtain ⟨before', hbefore', renamed⟩ := Text.renameIds_equals hf hbefore plain
  have text : (l.renameIds f).text = before' ++ '=' :: (blanks ++ (op ++ Text.renameIds f rest)) := by
    rw [renameIds, htext]
    cases rest with
    | nil => simpa [Text.renameIds, Text.segments_nil] using renamed
    | cons c rest =>
      have hc : isBlank c = true := hrest c rfl
      have split := Text.renameIds_blank f hc (before ++ '=' :: (blanks ++ op)) rest
      have first := Text.renameIds_blank f hc [] rest
      rw [renamed] at split
      simp only [List.append_assoc, List.cons_append, List.nil_append] at split first ⊢
      rw [split, first]
      simp [Text.renameIds, Text.segments_nil]
  -- The renamed words define something, so the line is cut somewhere, and the cut is unique.
  have defines : Text.DefiningWords (Text.words (l.renameIds f).text) := by
    rw [show Text.words (l.renameIds f).text = _ from keeps.words l.text]
    exact hf.definingWords keeps (isSome_halves?.mp (by rw [hs]; rfl))
  obtain ⟨⟨b, a⟩, hba⟩ := Option.isSome_iff_exists.mp (isSome_halves?.mpr defines)
  have cut := (halves?_eq_some.mp hba).1
  rw [text, Text.cutAt_eq_some.mpr ⟨rfl, hbefore'⟩] at cut
  cases cut
  exact ⟨before', hba⟩

/-- One identifier replaced on a line that defines another: both are free of equals signs, and
    the new one is one identifier. -/
theorem replaceId_reads {old new : Text} (hop : Text.sigil ∉ op) (hd : l.defined?.isSome = true) (hl : l.hasOpcode op = true)
    (hold : '=' ∉ old) (hnew : '=' ∉ new) (ident : Text.IsIdent new) :
    (l.replaceId old new).defined?.isSome = true ∧ (l.replaceId old new).hasOpcode op = true ∧
      (l.replaceId old new).rhsIds = l.rhsIds.map (Text.only old new) := by
  obtain ⟨id, hid⟩ := Option.isSome_iff_exists.mp hd
  obtain ⟨⟨before, after⟩, hs, -⟩ := Option.map_eq_some_iff.mp hid
  have keeps : Text.Keeps (Text.only old new) := Text.keeps_only (ident.isName hnew)
  -- What is behind the equals sign is the opcode and what it is said of.
  have hcode := hasCode_of_halves (l := l) (by rw [hs]; rfl)
  have first : (Text.words after).head? = some op := by
    have hop' : l.opcode? = some op := eq_of_beq hl
    rwa [opcode?, if_pos hcode, instruction_of_halves hs, Text.words_trim] at hop'
  obtain ⟨vs, hvs⟩ := List.head?_eq_some_iff.mp first
  obtain ⟨blanks, rest, rfl, hb, hw, hr, -⟩ := Text.words_eq_cons.mp hvs
  obtain ⟨before', hs'⟩ := halves?_renameIds_spared (Text.sparesEquals_only hold hnew) keeps hs hb hop hr
  have hr' : Text.Breaks (Text.renameIds (Text.only old new) rest) := by
    intro c hc
    rw [keeps.head?] at hc
    exact hr c hc
  have uses : ∀ rest, Text.Breaks rest →
      Text.identifiers (Text.trim (blanks ++ (op ++ rest))) = Text.identifiers rest := by
    intro rest hr
    rw [Text.identifiers_trim, Text.identifiers_eq_flatMap_words, Text.words_blanks_append hb, Text.words_append hw hr,
      List.flatMap_cons, Text.identifiers_of_no_sigil hop, List.nil_append, ← Text.identifiers_eq_flatMap_words]
  refine ⟨?_, ?_, ?_⟩
  · rw [replaceId, defined?, hs']
    rfl
  · rw [replaceId, hasOpcode, opcode?, if_pos (hasCode_of_halves (by rw [hs']; rfl)), instruction_of_halves hs',
      Text.words_trim, Text.words_blanks_append hb, Text.words_append hw hr', List.head?_cons, beq_self_eq_true]
  · have renamed : Text.identifiers (Text.renameIds (Text.only old new) rest) =
        (Text.identifiers rest).map (Text.only old new) :=
      Text.identifiers_renameIds fun id hid => Text.only_of ident (Text.isIdent_of_mem hid)
    simp only [replaceId, rhsIds, rhs?, hs', hs, Option.map_some, Option.getD_some, uses _ hr', uses _ hr, renamed]

end Line

end SpirvLink
