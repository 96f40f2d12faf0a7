/-
  SpirvLink.Proofs.Text.Renaming — what a renaming does to the identifiers of a text.

  The segments of a text are the one way to cut it so that every identifier is followed
  by a character that ends it (`segments_flatMap_text`). So a renaming to identifiers
  renames the segments and nothing else (`segments_renameIds`): the identifiers of the
  result are the renamed ones (`identifiers_renameIds`), two renamings in a row are one
  (`renameIds_renameIds`), and a blank cuts a text into parts that are renamed on their
  own (`renameIds_blank`).
-/

import SpirvLink.Text.Ident

namespace SpirvLink.Text

/-- One identifier and nothing else: a percent sign and no character that ends it. -/
def IsIdent (s : Text) : Prop :=
  s.head? = some sigil ∧ ∀ c ∈ s, endsIdent c = false

instance (s : Text) : Decidable (IsIdent s) :=
  @instDecidableAnd _ _ _ (List.decidableBAll _ _)

theorem endsIdent_of_isBlank {c : Char} (h : isBlank c = true) : endsIdent c = true := by
  simp [endsIdent, h]

theorem endsIdent_sigil : endsIdent sigil = false := by decide

theorem ne_sigil_of_endsIdent {c : Char} (h : endsIdent c = true) : c ≠ sigil := by
  rintro rfl
  rw [endsIdent_sigil] at h
  cases h

theorem isIdent_sigil {s : Text} : IsIdent (sigil :: s) ↔ ∀ c ∈ s, endsIdent c = false := by
  rw [IsIdent, List.forall_mem_cons]
  exact ⟨fun h => h.2.2, fun h => ⟨rfl, endsIdent_sigil, h⟩⟩

theorem IsIdent.ne_nil {s : Text} (h : IsIdent s) : s ≠ [] := by
  rintro rfl
  cases h.1

theorem IsIdent.not_blank {s : Text} (h : IsIdent s) : ∀ c ∈ s, isBlank c = false := by
  intro c hc
  have := h.2 c hc
  simp only [endsIdent, Bool.or_eq_false_iff] at this
  exact this.1

/-- What follows an identifier ends it. -/
def stops (s : Text) : Prop :=
  ∀ c ∈ s.head?, endsIdent c = true

theorem stops_nil : stops [] := by
  intro c hc
  cases hc

theorem stops_cons {c : Char} (h : endsIdent c = true) (s : Text) : stops (c :: s) := by
  intro d hd
  simp only [List.head?_cons, Option.mem_def, Option.some.injEq] at hd
  exact hd ▸ h

/-- What holds of the new identifier and of the one looked at holds of what stands in its place. -/
theorem only_of {P : Text → Prop} {old new id : Text} (hnew : P new) (hid : P id) : P (only old new id) := by
  unfold only
  split
  · exact hnew
  · exact hid

/-! ## The scanner on parts of a text -/

theorem segments_nil : segments [] = [] := rfl

theorem segments_cons (c : Char) (s : Text) :
    segments (c :: s) =
      if c = sigil then .ident (c :: (scan true s).1) :: (scan true s).2 else .other c :: segments s := by
  unfold segments
  rw [scan]
  split <;> rfl

theorem scan_true_cons (c : Char) (s : Text) :
    scan true (c :: s) =
      if endsIdent c then ([], .other c :: segments s) else (c :: (scan true s).1, (scan true s).2) := by
  rw [scan]
  rfl

theorem scan_true_append {w : Text} (hw : ∀ c ∈ w, endsIdent c = false) (s : Text) :
    scan true (w ++ s) = (w ++ (scan true s).1, (scan true s).2) := by
  induction w with
  | nil => rfl
  | cons c w ih =>
    have hc := hw c (List.mem_cons_self ..)
    have ih := ih fun d hd => hw d (List.mem_cons_of_mem _ hd)
    rw [List.cons_append, scan_true_cons, if_neg (by simp [hc]), ih]
    rfl

theorem scan_true_stops {s : Text} (h : stops s) : scan true s = ([], segments s) := by
  cases s with
  | nil => rfl
  | cons c s =>
    have hc : endsIdent c = true := h c rfl
    rw [scan_true_cons, if_pos hc, segments_cons, if_neg (ne_sigil_of_endsIdent hc)]

theorem segments_other {c : Char} (h : c ≠ sigil) (s : Text) :
    segments (c :: s) = .other c :: segments s := by
  rw [segments_cons, if_neg h]

theorem segments_ident {id s : Text} (hid : IsIdent id) (hs : stops s) :
    segments (id ++ s) = .ident id :: segments s := by
  obtain ⟨c, w, rfl⟩ := List.exists_cons_of_ne_nil hid.ne_nil
  have hc : c = sigil := by simpa using hid.1
  have hw := scan_true_append (w := w) (fun d hd => hid.2 d (List.mem_cons_of_mem _ hd)) s
  rw [List.cons_append, segments_cons, if_pos hc, hw, scan_true_stops hs]
  simp

theorem segments_of_isIdent {id : Text} (h : IsIdent id) : segments id = [.ident id] := by
  simpa [segments_nil] using segments_ident h stops_nil

/-! ## Lists of segments that a scan can give -/

/-- Each identifier is one token and is followed by what ends it; no percent sign stands
    outside the identifiers. -/
def Separated : List Segment → Prop
  | [] => True
  | .ident id :: gs => IsIdent id ∧ stops (gs.flatMap Segment.text) ∧ Separated gs
  | .other c :: gs => c ≠ sigil ∧ Separated gs

theorem scan_separated (s : Text) :
    ((∀ c ∈ (scan true s).1, endsIdent c = false) ∧ stops ((scan true s).2.flatMap Segment.text) ∧
        Separated (scan true s).2) ∧ Separated (segments s) := by
  induction s with
  | nil => exact ⟨⟨fun c hc => (by cases hc), stops_nil, trivial⟩, trivial⟩
  | cons c s ih =>
    obtain ⟨⟨hid, hstop, hopen⟩, hclosed⟩ := ih
    constructor
    · rw [scan_true_cons]
      by_cases hc : endsIdent c = true
      · rw [if_pos hc]
        exact ⟨fun d hd => (by cases hd), stops_cons hc _, ne_sigil_of_endsIdent hc, hclosed⟩
      · rw [if_neg hc]
        refine ⟨fun d hd => ?_, hstop, hopen⟩
        rcases List.mem_cons.mp hd with rfl | hd
        · simpa using hc
        · exact hid d hd
    · rw [segments_cons]
      by_cases hc : c = sigil
      · rw [if_pos hc]
        refine ⟨⟨by simp [hc], fun d hd => ?_⟩, hstop, hopen⟩
        rcases List.mem_cons.mp hd with rfl | hd
        · exact hc ▸ endsIdent_sigil
        · exact hid d hd
      · rw [if_neg hc]
        exact ⟨hc, hclosed⟩

theorem segments_separated (s : Text) : Separated (segments s) :=
  (scan_separated s).2

/-- The scanner finds again the segments that a text was joined from. -/
theorem segments_flatMap_text : ∀ {gs : List Segment}, Separated gs →
    segments (gs.flatMap Segment.text) = gs
  | [], _ => rfl
  | .ident id :: gs, h => by
    rw [List.flatMap_cons, Segment.text, segments_ident h.1 h.2.1, segments_flatMap_text h.2.2]
  | .other c :: gs, h => by
    rw [List.flatMap_cons, Segment.text, List.singleton_append, segments_other h.1,
      segments_flatMap_text h.2]

theorem isIdent_of_mem_segments {id : Text} : ∀ {gs : List Segment}, Separated gs →
    .ident id ∈ gs → IsIdent id
  | .ident _ :: _, h, hm => by
    rcases List.mem_cons.mp hm with he | hm
    · cases he
      exact h.1
    · exact isIdent_of_mem_segments h.2.2 hm
  | .other _ :: _, h, hm => by
    rcases List.mem_cons.mp hm with he | hm
    · cases he
    · exact isIdent_of_mem_segments h.2 hm

theorem ne_sigil_of_mem_segments {c : Char} : ∀ {gs : List Segment}, Separated gs → .other c ∈ gs → c ≠ sigil
  | .ident _ :: _, h, hm => by
    rcases List.mem_cons.mp hm with he | hm
    · cases he
    · exact ne_sigil_of_mem_segments h.2.2 hm
  | .other _ :: _, h, hm => by
    rcases List.mem_cons.mp hm with he | hm
    · cases he
      exact h.1
    · exact ne_sigil_of_mem_segments h.2 hm

theorem mem_identifiers {id s : Text} : id ∈ identifiers s ↔ .ident id ∈ segments s := by
  unfold identifiers
  constructor
  · intro h
    obtain ⟨g, hg, he⟩ := List.mem_filterMap.mp h
    cases g with
    | ident i =>
      cases he
      exact hg
    | other c => cases he
  · intro h
    exact List.mem_filterMap.mpr ⟨_, h, rfl⟩

theorem isIdent_of_mem {id s : Text} (h : id ∈ identifiers s) : IsIdent id :=
  isIdent_of_mem_segments (segments_separated s) (mem_identifiers.mp h)

theorem identifiers_of_isIdent {id : Text} (h : IsIdent id) : identifiers id = [id] := by
  rw [identifiers, segments_of_isIdent h]
  rfl

theorem identifiers_eq_self_iff {s : Text} : identifiers s = [s] ↔ IsIdent s :=
  ⟨fun h => isIdent_of_mem (h ▸ List.mem_singleton.mpr rfl), identifiers_of_isIdent⟩

/-! ## Renaming the segments -/

theorem stops_rename {f : Text → Text} {gs : List Segment} (hgs : Separated gs)
    (h : stops (gs.flatMap Segment.text)) :
    stops ((gs.map (Segment.rename f)).flatMap Segment.text) := by
  cases gs with
  | nil => exact h
  | cons g gs =>
    cases g with
    | ident id =>
      have hid := hgs.1
      obtain ⟨c, w, rfl⟩ := List.exists_cons_of_ne_nil hid.ne_nil
      have hc : endsIdent c = true := h c (by simp [Segment.text])
      rw [hid.2 c (List.mem_cons_self ..)] at hc
      cases hc
    | other c => exact stops_cons (h c (by simp [Segment.text])) _

theorem separated_rename {f : Text → Text} : ∀ {gs : List Segment},
    (∀ id, .ident id ∈ gs → IsIdent (f id)) → Separated gs → Separated (gs.map (Segment.rename f))
  | [], _, _ => trivial
  | .ident id :: gs, hf, h =>
    have hf' : ∀ i, .ident i ∈ gs → IsIdent (f i) := fun i hi => hf i (List.mem_cons_of_mem _ hi)
    ⟨hf id (List.mem_cons_self ..), stops_rename h.2.2 h.2.1, separated_rename hf' h.2.2⟩
  | .other _ :: _, hf, h =>
    ⟨h.1, separated_rename (fun i hi => hf i (List.mem_cons_of_mem _ hi)) h.2⟩

theorem renameIds_eq (f : Text → Text) (s : Text) :
    renameIds f s = ((segments s).map (Segment.rename f)).flatMap Segment.text := by
  rw [renameIds, List.flatMap_map]

/-- A renaming to identifiers renames each identifier in its place. -/
theorem segments_renameIds {f : Text → Text} {s : Text} (hf : ∀ id ∈ identifiers s, IsIdent (f id)) :
    segments (renameIds f s) = (segments s).map (Segment.rename f) := by
  rw [renameIds_eq]
  exact segments_flatMap_text
    (separated_rename (fun id h => hf id (mem_identifiers.mpr h)) (segments_separated s))

theorem identifiers_renameIds {f : Text → Text} {s : Text} (hf : ∀ id ∈ identifiers s, IsIdent (f id)) :
    identifiers (renameIds f s) = (identifiers s).map f := by
  rw [identifiers, segments_renameIds hf, identifiers, List.filterMap_map, List.map_filterMap]
  congr 1
  funext g
  cases g <;> rfl

theorem renameIds_renameIds {f : Text → Text} (g : Text → Text) {s : Text}
    (hf : ∀ id ∈ identifiers s, IsIdent (f id)) :
    renameIds g (renameIds f s) = renameIds (g ∘ f) s := by
  rw [renameIds_eq, segments_renameIds hf, renameIds_eq, List.map_map]
  congr 2
  funext x
  cases x <;> rfl

theorem renameIds_congr {f g : Text → Text} {s : Text} (h : ∀ id ∈ identifiers s, f id = g id) :
    renameIds f s = renameIds g s := by
  rw [renameIds_eq, renameIds_eq]
  congr 1
  refine List.map_congr_left fun x hx => ?_
  cases x with
  | ident id => exact congrArg Segment.ident (h id (mem_identifiers.mpr hx))
  | other c => rfl

theorem renameIds_of_eq {f : Text → Text} {s : Text} (h : ∀ id ∈ identifiers s, f id = id) :
    renameIds f s = s :=
  (renameIds_congr h).trans (renameIds_id s)

/-! ## A text that is one identifier -/

/-- What ends an identifier stays in a renaming, so only an identifier becomes one. -/
theorem isIdent_of_renameIds {f : Text → Text} {s : Text} (hs : s.head? = some sigil) (h : IsIdent (renameIds f s)) :
    IsIdent s := by
  refine ⟨hs, fun c hc => ?_⟩
  rw [← flatMap_segments s] at hc
  obtain ⟨g, hg, hc⟩ := List.mem_flatMap.mp hc
  cases g with
  | ident id => exact (isIdent_of_mem (mem_identifiers.mpr hg)).2 c hc
  | other d =>
    obtain rfl := List.mem_singleton.mp hc
    exact h.2 c (List.mem_flatMap.mpr ⟨.other c, hg, List.mem_singleton.mpr rfl⟩)

theorem renameIds_of_isIdent (f : Text → Text) {id : Text} (h : IsIdent id) : renameIds f id = f id := by
  rw [renameIds, segments_of_isIdent h]
  exact List.append_nil _

/-! ## Texts without identifiers, and blanks between parts -/

theorem segments_append_of_no_sigil : ∀ {s : Text}, sigil ∉ s → ∀ t, segments (s ++ t) = s.map .other ++ segments t
  | [], _, _ => rfl
  | c :: s, h, t => by
    rw [List.cons_append, segments_other (fun e => h (e ▸ List.mem_cons_self ..)),
      segments_append_of_no_sigil fun hm => h (List.mem_cons_of_mem _ hm)]
    rfl

theorem segments_of_no_sigil {s : Text} (h : sigil ∉ s) : segments s = s.map .other := by
  simpa [segments_nil] using segments_append_of_no_sigil h []

theorem filterMap_ident?_other (s : Text) : (s.map Segment.other).filterMap Segment.ident? = [] := by
  rw [List.filterMap_map]
  exact List.filterMap_eq_nil_iff.mpr fun _ _ => rfl

theorem identifiers_append_of_no_sigil {s : Text} (h : sigil ∉ s) (t : Text) : identifiers (s ++ t) = identifiers t := by
  rw [identifiers, segments_append_of_no_sigil h, List.filterMap_append, filterMap_ident?_other]
  rfl

theorem identifiers_of_no_sigil {s : Text} (h : sigil ∉ s) : identifiers s = [] := by
  rw [identifiers, segments_of_no_sigil h, filterMap_ident?_other]

theorem renameIds_of_no_sigil (f : Text → Text) {s : Text} (h : sigil ∉ s) : renameIds f s = s :=
  renameIds_of_eq fun id hid => by
    rw [identifiers_of_no_sigil h] at hid
    cases hid

/-- An identifier never runs over a character that ends it, so the parts before and after
    that character are scanned on their own. -/
theorem scan_ender {c : Char} (hc : endsIdent c = true) (s t : Text) :
    scan true (s ++ c :: t) = ((scan true s).1, (scan true s).2 ++ .other c :: segments t) ∧
      segments (s ++ c :: t) = segments s ++ .other c :: segments t := by
  induction s with
  | nil =>
    refine ⟨?_, segments_other (ne_sigil_of_endsIdent hc) t⟩
    rw [List.nil_append, scan_true_cons, if_pos hc]
    rfl
  | cons d s ih =>
    constructor
    · rw [List.cons_append, scan_true_cons, scan_true_cons]
      by_cases hd : endsIdent d = true
      · rw [if_pos hd, if_pos hd, ih.2]
        rfl
      · rw [if_neg hd, if_neg hd, ih.1]
    · rw [List.cons_append, segments_cons, segments_cons]
      by_cases hd : d = sigil
      · rw [if_pos hd, if_pos hd, ih.1]
        rfl
      · rw [if_neg hd, if_neg hd, ih.2]
        rfl

theorem identifiers_ender {c : Char} (hc : endsIdent c = true) (s t : Text) :
    identifiers (s ++ c :: t) = identifiers s ++ identifiers t := by
  rw [identifiers, (scan_ender hc s t).2, List.filterMap_append, List.filterMap_cons_none rfl]
  rfl

theorem identifiers_blank {c : Char} (hc : isBlank c = true) (s t : Text) :
    identifiers (s ++ c :: t) = identifiers s ++ identifiers t :=
  identifiers_ender (endsIdent_of_isBlank hc) s t

theorem renameIds_blank (f : Text → Text) {c : Char} (hc : isBlank c = true) (s t : Text) :
    renameIds f (s ++ c :: t) = renameIds f s ++ c :: renameIds f t := by
  rw [renameIds, (scan_ender (endsIdent_of_isBlank hc) s t).2, List.flatMap_append, List.flatMap_cons]
  rfl

end SpirvLink.Text
