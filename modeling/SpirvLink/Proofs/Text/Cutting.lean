/-
  SpirvLink.Proofs.Text.Cutting — the first word of a text and its first equals sign.

  Whether a line defines an identifier can be seen from its words alone: the first starts
  with a percent sign, and an equals sign is in it or starts the second
  (`cuts_iff_definingWords`). A renaming to names without blanks and equals signs
  (`Keeps`) does not change the answer. Where no identifier holds an equals sign, it
  renames what stands before the first one and what stands after it (`renameIds_cut`), and
  still no identifier holds one (`equalsFree_renameIds`).
-/

import SpirvLink.Line.Basic
import SpirvLink.Proofs.Text.Words

namespace SpirvLink.Text

variable {s u before after : Text} {vs : List Text} {f : Text → Text}

/-! ## Cutting at a character -/

theorem cutAt_eq_some {d : Char} : ∀ {s before after : Text},
    cutAt d s = some (before, after) ↔ s = before ++ d :: after ∧ d ∉ before
  | [], before, after => by simp [cutAt]
  | c :: s, before, after => by
    rw [cutAt]
    by_cases hc : c = d
    · subst hc
      rw [if_pos rfl]
      constructor
      · intro h
        cases h
        exact ⟨rfl, fun hm => (by cases hm)⟩
      · rintro ⟨hs, hm⟩
        cases before with
        | nil =>
          cases hs
          rfl
        | cons b before =>
          cases hs
          exact absurd (List.mem_cons_self ..) hm
    · rw [if_neg hc]
      constructor
      · intro h
        obtain ⟨⟨b, a⟩, hcut, heq⟩ := Option.map_eq_some_iff.mp h
        cases heq
        obtain ⟨rfl, hm⟩ := cutAt_eq_some.mp hcut
        exact ⟨rfl, fun h => (List.mem_cons.mp h).elim (fun e => hc e.symm) hm⟩
      · rintro ⟨hs, hm⟩
        cases before with
        | nil => exact absurd (List.cons.inj hs).1 hc
        | cons b before =>
          obtain ⟨rfl, htail⟩ := List.cons.inj hs
          have rest : cutAt d s = some (before, after) :=
            cutAt_eq_some.mpr ⟨htail, fun h => hm (List.mem_cons_of_mem _ h)⟩
          rw [rest]
          rfl

/-! ## The first word -/

theorem words_all_blank : ∀ {s : Text}, (∀ c ∈ s, isBlank c = true) → words s = []
  | [], _ => rfl
  | c :: s, h => by
    rw [words_blank (h c (List.mem_cons_self ..)), words_all_blank fun d hd => h d (List.mem_cons_of_mem _ hd)]

theorem words_blanks_append {blanks : Text} (h : ∀ c ∈ blanks, isBlank c = true) (s : Text) :
    words (blanks ++ s) = words s := by
  induction blanks with
  | nil => rfl
  | cons c blanks ih =>
    rw [List.cons_append, words_blank (h c (List.mem_cons_self ..)), ih fun d hd => h d (List.mem_cons_of_mem _ hd)]

/-- What follows a word: nothing, or a blank. -/
def Breaks (s : Text) : Prop :=
  ∀ c ∈ s.head?, isBlank c = true

theorem words_append {u : Text} (hu : IsWord u) {s : Text} (hs : Breaks s) : words (u ++ s) = u :: words s := by
  cases s with
  | nil => rw [List.append_nil, words_of_not_blank hu.2, pushWord_of_isWord hu]; rfl
  | cons c s =>
    have hc := hs c rfl
    rw [words_append_blank hu.2 hc, pushWord_of_isWord hu, words_blank hc]

/-- A text with words is blanks, its first word and what breaks it off. -/
theorem words_eq_cons : words s = u :: vs ↔
    ∃ blanks rest, s = blanks ++ (u ++ rest) ∧ (∀ c ∈ blanks, isBlank c = true) ∧ IsWord u ∧ Breaks rest ∧
      words rest = vs := by
  constructor
  · intro h
    have hu : IsWord u := isWord_of_mem_words (h ▸ List.mem_cons_self ..)
    induction s with
    | nil => cases h
    | cons c s ih =>
      cases hc : isBlank c with
      | true =>
        rw [words_blank hc] at h
        obtain ⟨blanks, rest, rfl, hb, found⟩ := ih h
        refine ⟨c :: blanks, rest, rfl, fun d hd => ?_, found⟩
        rcases List.mem_cons.mp hd with rfl | hd
        · exact hc
        · exact hb d hd
      | false =>
        rcases exists_first isBlank (c :: s) with whole | ⟨w, d, t, hw, hd, heq⟩
        · rw [words_of_not_blank whole, pushWord_of_isWord ⟨List.cons_ne_nil _ _, whole⟩] at h
          cases h
          exact ⟨[], [], by simp, fun d hd => (by cases hd), hu, fun d hd => (by cases hd), rfl⟩
        · have hw' : IsWord w := by
            refine ⟨?_, hw⟩
            rintro rfl
            cases heq
            rw [hd] at hc
            cases hc
          have hb : Breaks (d :: t) := fun e he => by
            cases he
            exact hd
          rw [heq, words_append hw' hb] at h
          cases h
          exact ⟨[], d :: t, by rw [heq]; rfl, fun d hd => (by cases hd), hw', hb, rfl⟩
  · rintro ⟨blanks, rest, rfl, hb, hu, hr, rfl⟩
    rw [words_blanks_append hb, words_append hu hr]

theorem trimStart_blanks {blanks : Text} (h : ∀ c ∈ blanks, isBlank c = true) (s : Text) :
    trimStart (blanks ++ s) = trimStart s := by
  induction blanks with
  | nil => rfl
  | cons c blanks ih =>
    rw [List.cons_append, trimStart, List.dropWhile_cons_of_pos (h c (List.mem_cons_self ..))]
    exact ih fun d hd => h d (List.mem_cons_of_mem _ hd)

theorem trimStart_word {u : Text} (hu : IsWord u) (s : Text) : trimStart (u ++ s) = u ++ s := by
  obtain ⟨c, v, rfl⟩ := List.exists_cons_of_ne_nil hu.1
  rw [List.cons_append, trimStart_of_head (hu.2 c (List.mem_cons_self ..))]

theorem trimEnd_all_blank : ∀ {s : Text}, (∀ c ∈ s, isBlank c = true) → trimEnd s = []
  | [], _ => rfl
  | c :: s, h => by
    rw [trimEnd, trimEnd_all_blank fun d hd => h d (List.mem_cons_of_mem _ hd), h c (List.mem_cons_self ..)]
    rfl

theorem trimEnd_append_blanks {blanks : Text} (h : ∀ c ∈ blanks, isBlank c = true) : ∀ s : Text,
    trimEnd (s ++ blanks) = trimEnd s
  | [] => trimEnd_all_blank h
  | c :: s => by rw [List.cons_append, trimEnd, trimEnd_append_blanks h s, trimEnd]

/-- Blanks at the end go up to the last other character. -/
theorem trimEnd_append_of_ne {s : Text} (h : trimEnd s ≠ []) : ∀ t : Text, trimEnd (t ++ s) = t ++ trimEnd s
  | [] => rfl
  | c :: t => by
    have hne : t ++ trimEnd s ≠ [] := fun he => h (List.append_eq_nil_iff.mp he).2
    rw [List.cons_append, trimEnd, trimEnd_append_of_ne h t, List.cons_append]
    exact if_neg (by simp [hne])

theorem words_eq_nil_iff : words s = [] ↔ ∀ c ∈ s, isBlank c = true := by
  refine ⟨fun h => ?_, words_all_blank⟩
  induction s with
  | nil => exact fun c hc => (by cases hc)
  | cons c s ih =>
    cases hc : isBlank c with
    | true =>
      rw [words_blank hc] at h
      intro d hd
      rcases List.mem_cons.mp hd with rfl | hd
      · exact hc
      · exact ih h d hd
    | false =>
      rw [words_eq, splitWord_cons, if_neg (by simp [hc])] at h
      cases h

theorem trim_eq_of_words (h : words s = [u]) : trim s = u := by
  obtain ⟨blanks, rest, rfl, hb, hu, -, hr⟩ := words_eq_cons.mp h
  rw [trim, trimStart_blanks hb, trimStart_word hu]
  rw [trimEnd_append_blanks (words_eq_nil_iff.mp hr)]
  exact trimEnd_of_getLast fun c hc => hu.2 c (List.mem_of_mem_getLast? hc)

/-! ## Lines that define -/

theorem canDefine_trim_iff : Line.canDefine (trim s) = true ↔ ∃ u, words s = [u] ∧ u.head? = some sigil := by
  have reads : words (trim s) = words s := words_trim s
  constructor
  · intro h
    simp only [Line.canDefine, Bool.and_eq_true, beq_iff_eq, Bool.not_eq_true', hasBlank, List.any_eq_false,
      Bool.not_eq_true] at h
    have hne : trim s ≠ [] := fun he => by simp [he] at h
    exact ⟨trim s, by rw [← reads, words_of_not_blank h.2, pushWord_of_isWord ⟨hne, h.2⟩], h.1⟩
  · rintro ⟨u, hu, hh⟩
    have hw : IsWord u := isWord_of_mem_words (hu ▸ List.mem_cons_self ..)
    rw [trim_eq_of_words hu]
    simp only [Line.canDefine, hh, beq_self_eq_true, Bool.true_and, Bool.not_eq_true', hasBlank, List.any_eq_false,
      Bool.not_eq_true]
    exact hw.2

/-- The words of a line that defines an identifier. -/
def DefiningWords : List Text → Prop
  | [] => False
  | u :: vs => u.head? = some sigil ∧ ('=' ∈ u ∨ ∃ v ∈ vs.head?, v.head? = some '=')

/-- The text has an equals sign, and what stands before it can be defined. -/
def Cuts (s before after : Text) : Prop :=
  cutAt '=' s = some (before, after) ∧ Line.canDefine (trim before) = true

theorem not_blank_equals : isBlank '=' = false := by decide

theorem words_head_equals (t : Text) : ∃ v vs, words ('=' :: t) = v :: vs ∧ v.head? = some '=' := by
  rw [words_eq, splitWord_cons, if_neg (by simp [not_blank_equals])]
  exact ⟨_, _, rfl, rfl⟩

/-- The word that starts with an equals sign goes up to a blank or the end. -/
theorem exists_word_equals (t : Text) : ∃ v rest, '=' :: t = v ++ rest ∧ IsWord v ∧ '=' ∈ v ∧ Breaks rest := by
  obtain ⟨v, vs, hv, -⟩ := words_head_equals t
  obtain ⟨blanks, rest, heq, hb, hw, hr, -⟩ := words_eq_cons.mp hv
  cases blanks with
  | nil =>
    obtain ⟨c, v, rfl⟩ := List.exists_cons_of_ne_nil hw.1
    have first := heq
    cases first
    exact ⟨_, rest, heq, hw, List.mem_cons_self .., hr⟩
  | cons c blanks =>
    cases heq
    have := hb '=' (List.mem_cons_self ..)
    rw [not_blank_equals] at this
    cases this

theorem equals_not_mem_of_blank {t : Text} (h : ∀ c ∈ t, isBlank c = true) : '=' ∉ t := by
  intro hm
  have := h _ hm
  rw [not_blank_equals] at this
  cases this

theorem Cuts.definingWords {before after : Text} (h : Cuts s before after) : DefiningWords (words s) := by
  obtain ⟨hcut, hcan⟩ := h
  obtain ⟨rfl, -⟩ := cutAt_eq_some.mp hcut
  obtain ⟨u, hu, hh⟩ := canDefine_trim_iff.mp hcan
  obtain ⟨blanks, rest, rfl, hb, hw, hr, hrest⟩ := words_eq_cons.mp hu
  have blank := words_eq_nil_iff.mp hrest
  rw [List.append_assoc, List.append_assoc, words_blanks_append hb]
  cases rest with
  | nil =>
    -- The sign stands directly behind the identifier, so it is in the same word.
    obtain ⟨v, rest, heq, hv, hsign, hr⟩ := exists_word_equals after
    have joined : IsWord (u ++ v) :=
      ⟨fun he => hw.1 (List.append_eq_nil_iff.mp he).1, fun c hc => (List.mem_append.mp hc).elim (hw.2 c) (hv.2 c)⟩
    rw [List.nil_append, heq, ← List.append_assoc, words_append joined hr]
    exact ⟨by rw [List.head?_append, hh]; rfl, Or.inl (List.mem_append_right _ hsign)⟩
  | cons c rest =>
    have breaks : Breaks ((c :: rest) ++ '=' :: after) := fun d hd => hr d (by simpa using hd)
    rw [words_append hw breaks, words_blanks_append blank]
    obtain ⟨v, vs, hv, hvh⟩ := words_head_equals after
    exact ⟨hh, Or.inr ⟨v, by rw [hv]; rfl, hvh⟩⟩

/-- A text whose first word is an identifier can be cut at an equals sign in that word or at
    the start of the next. -/
theorem exists_cuts {u : Text} {vs : List Text} (hws : words s = u :: vs) (h : DefiningWords (u :: vs)) :
    ∃ before after, Cuts s before after := by
  obtain ⟨hh, hsign⟩ := h
  obtain ⟨blanks, rest, rfl, hb, hw, hr, hvs⟩ := words_eq_cons.mp hws
  by_cases hu : '=' ∈ u
  · obtain ⟨w, t, rfl, hwt⟩ := List.eq_append_cons_of_mem hu
    have start : w.head? = some sigil ∧ IsWord w := by
      cases w with
      | nil => cases hh
      | cons c w => exact ⟨hh, List.cons_ne_nil _ _, fun d hd => hw.2 d (List.mem_append_left _ hd)⟩
    refine ⟨blanks ++ w, t ++ rest, cutAt_eq_some.mpr ⟨by simp, ?_⟩, canDefine_trim_iff.mpr ⟨w, ?_, start.1⟩⟩
    · rw [List.mem_append, not_or]
      exact ⟨equals_not_mem_of_blank hb, hwt⟩
    · rw [words_blanks_append hb, words_of_not_blank start.2.2, pushWord_of_isWord start.2]
  · obtain ⟨v, hv, hvh⟩ := hsign.resolve_left hu
    cases vs with
    | nil => cases hv
    | cons v' vs =>
      cases hv
      obtain ⟨blanks', rest', rfl, hb', hv', hr', -⟩ := words_eq_cons.mp hvs
      obtain ⟨c, v'', rfl⟩ := List.exists_cons_of_ne_nil hv'.1
      cases hvh
      have breaks : Breaks blanks' := fun d hd => hb' d (List.mem_of_mem_head? hd)
      refine ⟨blanks ++ (u ++ blanks'), v'' ++ rest', cutAt_eq_some.mpr ⟨by simp, ?_⟩,
        canDefine_trim_iff.mpr ⟨u, ?_, hh⟩⟩
      · simp only [List.mem_append, not_or]
        exact ⟨equals_not_mem_of_blank hb, hu, equals_not_mem_of_blank hb'⟩
      · rw [words_blanks_append hb, words_append hw breaks, words_all_blank hb']

theorem cuts_iff_definingWords : (∃ before after, Cuts s before after) ↔ DefiningWords (words s) := by
  constructor
  · rintro ⟨before, after, h⟩
    exact h.definingWords
  · intro h
    cases hws : words s with
    | nil =>
      rw [hws] at h
      exact h.elim
    | cons u vs =>
      rw [hws] at h
      exact exists_cuts hws h

/-! ## Names that can be put in -/

/-- A text that stands for one identifier and brings no blank and no equals sign. -/
structure IsName (s : Text) : Prop where
  sigil : s.head? = some sigil
  noBlank : ∀ c ∈ s, isBlank c = false
  noEquals : '=' ∉ s

instance (s : Text) : Decidable (IsName s) :=
  let _ : Decidable (∀ c ∈ s, isBlank c = false) := List.decidableBAll _ _
  decidable_of_iff (s.head? = some Text.sigil ∧ (∀ c ∈ s, isBlank c = false) ∧ '=' ∉ s)
    ⟨fun h => ⟨h.1, h.2.1, h.2.2⟩, fun h => ⟨h.sigil, h.noBlank, h.noEquals⟩⟩

/-- A renaming that leaves an identifier or puts such a text in its place. -/
def Keeps (f : Text → Text) : Prop :=
  ∀ id, IsIdent id → f id = id ∨ IsName (f id)

theorem IsName.isWord {s : Text} (h : IsName s) : IsWord s := by
  refine ⟨?_, h.noBlank⟩
  rintro rfl
  cases h.sigil

theorem IsIdent.isName {s : Text} (h : IsIdent s) (noEquals : '=' ∉ s) : IsName s :=
  ⟨h.1, h.not_blank, noEquals⟩

theorem keeps_only {old new : Text} (h : IsName new) : Keeps (only old new) :=
  fun id _ => only_of (P := fun other => other = id ∨ IsName other) (Or.inr h) (Or.inl rfl)

theorem Keeps.isWord (hf : Keeps f) {id : Text} (hid : IsIdent id) : IsWord (f id) := by
  rcases hf id hid with h | h
  · rw [h]
    exact hid.isWord
  · exact h.isWord

theorem Keeps.words (hf : Keeps f) (s : Text) : words (renameIds f s) = (words s).map (renameIds f) :=
  words_renameIds fun _ hid => hf.isWord (isIdent_of_mem hid)

/-- The first character of a text is never renamed away. -/
theorem Keeps.head? (hf : Keeps f) (s : Text) : (renameIds f s).head? = s.head? := by
  cases s with
  | nil => rfl
  | cons c s =>
    by_cases hc : c = Text.sigil
    · have hid : IsIdent (c :: (scan true s).1) := by
        refine isIdent_of_mem (s := c :: s) (mem_identifiers.mpr ?_)
        rw [segments_cons, if_pos hc]
        exact List.mem_cons_self ..
      have first : (f (c :: (scan true s).1)).head? = some c := by
        rcases hf _ hid with h | h
        · rw [h]
          rfl
        · rw [h.sigil, hc]
      rw [renameIds, segments_cons, if_pos hc, List.flatMap_cons, List.head?_append]
      simp [Segment.rename, Segment.text, first]
    · rw [renameIds, segments_other hc]
      rfl

theorem mem_of_mem_identifiers {id : Text} {c : Char} (hid : id ∈ identifiers s) (hc : c ∈ id) : c ∈ s := by
  rw [← flatMap_segments s]
  exact List.mem_flatMap.mpr ⟨_, mem_identifiers.mp hid, hc⟩

theorem Keeps.mem_equals (hf : Keeps f) (h : '=' ∈ renameIds f s) : '=' ∈ s := by
  rcases mem_renameIds h with ⟨id, hid, hc⟩ | h
  · rcases hf id (isIdent_of_mem hid) with he | hn
    · rw [he] at hc
      exact mem_of_mem_identifiers hid hc
    · exact absurd hc hn.noEquals
  · exact h

/-- A word with a percent sign keeps one, so it never becomes a word without. -/
theorem Keeps.eq_iff (hf : Keeps f) {op : Text} (hop : Text.sigil ∉ op) : renameIds f s = op ↔ s = op := by
  constructor
  · intro h
    by_cases hs : Text.sigil ∈ s
    · obtain ⟨id, hid⟩ : ∃ id, id ∈ identifiers s := by
        rw [← flatMap_segments s] at hs
        obtain ⟨g, hg, hc⟩ := List.mem_flatMap.mp hs
        cases g with
        | ident id => exact ⟨id, mem_identifiers.mpr hg⟩
        | other c => exact absurd (List.mem_singleton.mp hc).symm (ne_sigil_of_mem_segments (segments_separated s) hg)
      have first : Text.sigil ∈ f id := by
        rcases hf id (isIdent_of_mem hid) with he | hn
        · rw [he]
          exact List.mem_of_mem_head? (isIdent_of_mem hid).1
        · exact List.mem_of_mem_head? hn.sigil
      refine absurd (h ▸ ?_) hop
      exact List.mem_flatMap.mpr ⟨_, mem_identifiers.mp hid, first⟩
    · rw [renameIds_of_no_sigil f hs] at h
      exact h
  · rintro rfl
    exact renameIds_of_no_sigil f hop

/-- A renaming makes no definition out of a line that is none. -/
theorem Keeps.definingWords (hf : Keeps f) {ws : List Text} (h : DefiningWords (ws.map (renameIds f))) :
    DefiningWords ws := by
  cases ws with
  | nil => exact h
  | cons u vs =>
    obtain ⟨hh, hsign⟩ := h
    rw [hf.head?] at hh
    refine ⟨hh, hsign.imp hf.mem_equals ?_⟩
    rintro ⟨v, hv, hvh⟩
    rw [List.head?_map] at hv
    obtain ⟨w, hw, rfl⟩ := Option.map_eq_some_iff.mp hv
    rw [hf.head?] at hvh
    exact ⟨w, hw, hvh⟩

/-! ## Identifiers without an equals sign -/

/-- No identifier of the text holds an equals sign. -/
def EqualsFree (s : Text) : Prop :=
  ∀ id ∈ identifiers s, '=' ∉ id

/-- No identifier holds an equals sign, where one may be open at the start. -/
def EqualsFreeFrom (inside : Bool) (s : Text) : Prop :=
  '=' ∉ (scan inside s).1 ∧ ∀ id, .ident id ∈ (scan inside s).2 → '=' ∉ id

theorem equalsFreeFrom_false : EqualsFreeFrom false s ↔ EqualsFree s := by
  have closed : (scan false s).1 = [] := by
    cases s with
    | nil => rfl
    | cons c s =>
      rw [scan]
      split <;> rfl
  rw [EqualsFreeFrom, closed]
  exact ⟨fun h id hid => h.2 id (mem_identifiers.mp hid), fun h =>
    ⟨List.not_mem_nil, fun id hid => h id (mem_identifiers.mpr hid)⟩⟩

theorem equalsFreeFrom_true_cons {c : Char} : EqualsFreeFrom true (c :: s) ↔
    if endsIdent c then EqualsFreeFrom false s else c ≠ '=' ∧ EqualsFreeFrom true s := by
  rw [equalsFreeFrom_false, EqualsFreeFrom, scan_true_cons]
  split
  · simp [EqualsFree, mem_identifiers]
  · simp [EqualsFreeFrom, eq_comm, and_assoc]

theorem equalsFreeFrom_false_cons {c : Char} : EqualsFreeFrom false (c :: s) ↔
    if c = sigil then EqualsFreeFrom true s else EqualsFreeFrom false s := by
  rw [equalsFreeFrom_false, equalsFreeFrom_false, EqualsFree]
  simp only [mem_identifiers, segments_cons]
  split
  · next h =>
    subst h
    simp [EqualsFreeFrom, show '=' ≠ sigil by decide]
  · simp [EqualsFree, mem_identifiers]

/-- A text without an equals sign opens no identifier that holds one. -/
theorem equalsFreeFrom_append {t : Text} (ht : '=' ∉ t) (hs : EqualsFree s) (stop : stops s) :
    ∀ inside, EqualsFreeFrom inside (t ++ s) := by
  induction t with
  | nil =>
    intro inside
    cases inside with
    | false => exact equalsFreeFrom_false.mpr hs
    | true =>
      rw [List.nil_append, EqualsFreeFrom, scan_true_stops stop]
      exact ⟨List.not_mem_nil, fun id hid => hs id (mem_identifiers.mpr hid)⟩
  | cons c t ih =>
    have ih := ih fun hm => ht (List.mem_cons_of_mem _ hm)
    intro inside
    cases inside with
    | false =>
      rw [List.cons_append, equalsFreeFrom_false_cons]
      split
      · exact ih true
      · exact ih false
    | true =>
      rw [List.cons_append, equalsFreeFrom_true_cons]
      split
      · exact ih false
      · exact ⟨fun he => ht (he ▸ List.mem_cons_self ..), ih true⟩

/-- No identifier runs over the equals sign, so both sides of it are scanned on their own. -/
theorem scan_equals (s t : Text) :
    (EqualsFreeFrom true (s ++ '=' :: t) →
        scan true (s ++ '=' :: t) = ((scan true s).1, (scan true s).2 ++ .other '=' :: segments t)) ∧
      (EqualsFreeFrom false (s ++ '=' :: t) → segments (s ++ '=' :: t) = segments s ++ .other '=' :: segments t) := by
  induction s with
  | nil =>
    refine ⟨fun h => ?_, fun _ => segments_other (by decide) t⟩
    rw [List.nil_append, equalsFreeFrom_true_cons, if_neg (by decide)] at h
    exact absurd rfl h.1
  | cons c s ih =>
    constructor
    · intro h
      rw [List.cons_append, equalsFreeFrom_true_cons] at h
      rw [List.cons_append, scan_true_cons, scan_true_cons]
      split
      · next hc =>
        rw [if_pos hc] at h
        rw [ih.2 h]
        rfl
      · next hc =>
        rw [if_neg hc] at h
        rw [ih.1 h.2]
    · intro h
      rw [List.cons_append, equalsFreeFrom_false_cons] at h
      rw [List.cons_append, segments_cons, segments_cons]
      split
      · next hc =>
        rw [if_pos hc] at h
        rw [ih.1 h]
        rfl
      · next hc =>
        rw [if_neg hc] at h
        rw [ih.2 h]
        rfl

/-- Whether an identifier runs over the equals sign depends on what stands before it. -/
theorem equalsFreeFrom_cut (t : Text) : ∀ (s : Text) (inside : Bool), EqualsFreeFrom inside (s ++ '=' :: t) ↔
    EqualsFreeFrom inside (s ++ ['=']) ∧ EqualsFree t
  | [], true => by
    rw [List.nil_append, List.nil_append, equalsFreeFrom_true_cons, equalsFreeFrom_true_cons, if_neg (by decide), if_neg (by decide)]
    simp
  | [], false => by
    have alone : EqualsFreeFrom false [] := equalsFreeFrom_false.mpr fun _ h => by cases h
    rw [List.nil_append, List.nil_append, equalsFreeFrom_false_cons, equalsFreeFrom_false_cons, if_neg (by decide), if_neg (by decide),
      equalsFreeFrom_false]
    simp [alone]
  | c :: s, true => by
    rw [List.cons_append, List.cons_append, equalsFreeFrom_true_cons, equalsFreeFrom_true_cons]
    split
    · exact equalsFreeFrom_cut t s false
    · rw [equalsFreeFrom_cut t s true, and_assoc]
  | c :: s, false => by
    rw [List.cons_append, List.cons_append, equalsFreeFrom_false_cons, equalsFreeFrom_false_cons]
    split
    · exact equalsFreeFrom_cut t s true
    · exact equalsFreeFrom_cut t s false

theorem identifiers_cut (h : EqualsFree (before ++ '=' :: after)) :
    identifiers (before ++ '=' :: after) = identifiers before ++ identifiers after := by
  rw [identifiers, (scan_equals before after).2 (equalsFreeFrom_false.mpr h), List.filterMap_append,
    List.filterMap_cons_none rfl]
  rfl

theorem renameIds_cut (f : Text → Text) (h : EqualsFree (before ++ '=' :: after)) :
    renameIds f (before ++ '=' :: after) = renameIds f before ++ '=' :: renameIds f after := by
  rw [renameIds, (scan_equals before after).2 (equalsFreeFrom_false.mpr h), List.flatMap_append, List.flatMap_cons]
  rfl

/-- Renaming to texts without an equals sign brings none into an identifier. -/
theorem equalsFree_renameIds (hf : ∀ id ∈ identifiers s, '=' ∉ f id) : EqualsFree (renameIds f s) := by
  have step : ∀ {gs : List Segment}, Separated gs → (∀ id, .ident id ∈ gs → '=' ∉ f id) →
      EqualsFree ((gs.map (Segment.rename f)).flatMap Segment.text) := by
    intro gs
    induction gs with
    | nil => exact fun _ _ id hid => (by cases hid)
    | cons g gs ih =>
      intro sep hf
      have hf' : ∀ id, .ident id ∈ gs → '=' ∉ f id := fun id hid => hf id (List.mem_cons_of_mem _ hid)
      rw [← equalsFreeFrom_false, List.map_cons, List.flatMap_cons]
      cases g with
      | ident id =>
        obtain ⟨-, stop, sep⟩ := sep
        exact equalsFreeFrom_append (hf id (List.mem_cons_self ..)) (ih sep hf') (stops_rename sep stop) false
      | other c =>
        obtain ⟨hc, sep⟩ := sep
        rw [Segment.rename, Segment.text, List.singleton_append, equalsFreeFrom_false_cons, if_neg hc, equalsFreeFrom_false]
        exact ih sep hf'
  rw [renameIds_eq]
  exact step (segments_separated s) fun id hid => hf id (mem_identifiers.mpr hid)

/-- A renaming of the identifiers without an equals sign alone. -/
def guarded (f : Text → Text) (id : Text) : Text :=
  if '=' ∈ id then id else f id

theorem keeps_guarded (hf : ∀ id, IsIdent id → '=' ∉ id → IsName (f id)) : Keeps (guarded f) := by
  intro id hid
  unfold guarded
  split
  · exact Or.inl rfl
  · next h => exact Or.inr (hf id hid h)

theorem renameIds_guarded (h : EqualsFree s) : renameIds (guarded f) s = renameIds f s :=
  renameIds_congr fun id hid => if_neg (h id hid)

end SpirvLink.Text
