/-
  SpirvLink.Proofs.Text.Words — words, the blanks around them, and renaming.

  Words joined by single spaces are read back (`words_unwords`), blanks at the ends of a
  text hold no word (`words_trim`), and a renaming to names without blanks renames word by
  word (`words_renameIds`).
-/

import SpirvLink.Text.Basic
import SpirvLink.Proofs.Text.Renaming

namespace SpirvLink.Text

/-- A text that can be a word: it is not empty and has no blank. -/
def IsWord (w : Text) : Prop :=
  w ≠ [] ∧ ∀ c ∈ w, isBlank c = false

/-- What holds of every character of a text can be seen character by character. -/
theorem forall_of_all {p : Char → Prop} [DecidablePred p] {s : Text} (h : (s.all fun c => decide (p c)) = true) :
    ∀ c ∈ s, p c :=
  fun c hc => of_decide_eq_true (List.all_eq_true.mp h c hc)

instance (w : Text) : Decidable (IsWord w) :=
  @instDecidableAnd _ _ _ (List.decidableBAll _ _)

theorem IsIdent.isWord {s : Text} (h : IsIdent s) : IsWord s :=
  ⟨h.ne_nil, h.not_blank⟩

/-! ## Reading words -/

theorem pushWord_of_isWord {w : Text} (h : IsWord w) (ws : List Text) : pushWord w ws = w :: ws := by
  rw [pushWord, if_neg (by simpa using h.1)]

theorem words_eq (s : Text) : words s = pushWord (splitWord s).1 (splitWord s).2 := rfl

theorem splitWord_cons (c : Char) (s : Text) :
    splitWord (c :: s) =
      if isBlank c then ([], words s) else (c :: (splitWord s).1, (splitWord s).2) := by
  rw [splitWord, words_eq]

theorem splitWord_append {w : Text} (hw : ∀ c ∈ w, isBlank c = false) (s : Text) :
    splitWord (w ++ s) = (w ++ (splitWord s).1, (splitWord s).2) := by
  induction w with
  | nil => rfl
  | cons c w ih =>
    have hc := hw c (List.mem_cons_self ..)
    have ih := ih fun d hd => hw d (List.mem_cons_of_mem _ hd)
    rw [List.cons_append, splitWord_cons, if_neg (by simp [hc]), ih]
    rfl

theorem words_blank {c : Char} (hc : isBlank c = true) (s : Text) : words (c :: s) = words s := by
  rw [words_eq, splitWord_cons, if_pos hc]
  rfl

theorem words_append_blank {w : Text} (hw : ∀ c ∈ w, isBlank c = false) {c : Char} (hc : isBlank c = true)
    (s : Text) : words (w ++ c :: s) = pushWord w (words s) := by
  rw [words_eq, splitWord_append hw, splitWord_cons, if_pos hc]
  simp

theorem words_of_not_blank {w : Text} (hw : ∀ c ∈ w, isBlank c = false) : words w = pushWord w [] := by
  have h := splitWord_append hw []
  rw [List.append_nil] at h
  rw [words_eq, h]
  simp [splitWord]

/-- A text has no character of a class, or it has a first one. -/
theorem exists_first (p : Char → Bool) (s : Text) :
    (∀ c ∈ s, p c = false) ∨ ∃ w c t, (∀ d ∈ w, p d = false) ∧ p c = true ∧ s = w ++ c :: t := by
  induction s with
  | nil => exact Or.inl fun c hc => (by cases hc)
  | cons c s ih =>
    cases hc : p c with
    | true => exact Or.inr ⟨[], c, s, fun d hd => (by cases hd), hc, rfl⟩
    | false =>
      rcases ih with ih | ⟨w, d, t, hw, hd, rfl⟩
      · exact Or.inl (List.forall_mem_cons.mpr ⟨hc, ih⟩)
      · exact Or.inr ⟨c :: w, d, t, List.forall_mem_cons.mpr ⟨hc, hw⟩, hd, rfl⟩

/-- To prove something of every text, prove it of texts without a character of the class,
    and of a text with one from what stands after the first. -/
theorem first_induction (p : Char → Bool) {P : Text → Prop} (run : ∀ w, (∀ c ∈ w, p c = false) → P w)
    (first : ∀ w c t, (∀ d ∈ w, p d = false) → p c = true → P t → P (w ++ c :: t)) (s : Text) : P s := by
  induction hn : s.length using Nat.strongRecOn generalizing s with
  | ind n ih =>
    rcases exists_first p s with h | ⟨w, c, t, hw, hc, rfl⟩
    · exact run s h
    · refine first w c t hw hc (ih t.length ?_ t rfl)
      simp only [List.length_append, List.length_cons] at hn
      omega

theorem blank_induction {P : Text → Prop} (word : ∀ w, (∀ c ∈ w, isBlank c = false) → P w)
    (blank : ∀ w c t, (∀ d ∈ w, isBlank d = false) → isBlank c = true → P t → P (w ++ c :: t)) (s : Text) : P s :=
  first_induction isBlank word blank s

theorem isWord_of_mem_words {s w : Text} : w ∈ words s → IsWord w := by
  induction s using blank_induction with
  | word s hs =>
    intro h
    rw [words_of_not_blank hs, pushWord] at h
    split at h
    · cases h
    · next hne =>
      cases List.mem_singleton.mp h
      exact ⟨by simpa using hne, hs⟩
  | blank v c t hv hc ih =>
    intro h
    rw [words_append_blank hv hc, pushWord] at h
    split at h
    · exact ih h
    · next hne =>
      rcases List.mem_cons.mp h with rfl | h
      · exact ⟨by simpa using hne, hv⟩
      · exact ih h

theorem identifiers_eq_flatMap_words (s : Text) : identifiers s = (words s).flatMap identifiers := by
  have push : ∀ (w : Text) (ws : List Text),
      (pushWord w ws).flatMap identifiers = identifiers w ++ ws.flatMap identifiers := by
    intro w ws
    cases w <;> simp [pushWord, identifiers, segments_nil]
  induction s using blank_induction with
  | word w hw => rw [words_of_not_blank hw, push, List.flatMap_nil, List.append_nil]
  | blank w c t hw hc ih => rw [words_append_blank hw hc, push, identifiers_blank hc, ih]

/-! ## Printing words -/

theorem words_unwords : ∀ {ws : List Text}, (∀ w ∈ ws, IsWord w) → words (unwords ws) = ws
  | [], _ => rfl
  | [w], h => by
    have hw := h w (List.mem_cons_self ..)
    rw [unwords, words_of_not_blank hw.2, pushWord_of_isWord hw]
  | w :: v :: ws, h => by
    have hw := h w (List.mem_cons_self ..)
    rw [unwords, words_append_blank hw.2 isBlank_space, pushWord_of_isWord hw,
      words_unwords fun u hu => h u (List.mem_cons_of_mem _ hu)]

theorem identifiers_unwords : ∀ (ws : List Text), identifiers (unwords ws) = ws.flatMap identifiers
  | [] => rfl
  | [w] => by simp [unwords]
  | w :: v :: ws => by
    rw [unwords, identifiers_blank isBlank_space, identifiers_unwords (v :: ws)]
    rfl

theorem renameIds_unwords (f : Text → Text) : ∀ (ws : List Text),
    renameIds f (unwords ws) = unwords (ws.map (renameIds f))
  | [] => rfl
  | [w] => rfl
  | w :: v :: ws => by
    rw [unwords, renameIds_blank f isBlank_space, renameIds_unwords f (v :: ws)]
    rfl

/-- The first word starts the text, and more can only follow after a space. -/
theorem unwords_cons (w : Text) (ws : List Text) : ∃ s, unwords (w :: ws) = w ++ s := by
  cases ws with
  | nil => exact ⟨[], by simp [unwords]⟩
  | cons v ws => exact ⟨' ' :: unwords (v :: ws), rfl⟩

theorem getLast?_unwords : ∀ {ws : List Text}, (∀ w ∈ ws, IsWord w) →
    ∀ c ∈ (unwords ws).getLast?, isBlank c = false
  | [], _, c, hc => by cases hc
  | [w], h, c, hc => (h w (List.mem_cons_self ..)).2 c (List.mem_of_mem_getLast? hc)
  | w :: v :: ws, h, c, hc => by
    have hne : unwords (v :: ws) ≠ [] := by
      obtain ⟨s, hs⟩ := unwords_cons v ws
      have := (h v (by simp)).1
      simp [hs, this]
    have last : (unwords (w :: v :: ws)).getLast? = (unwords (v :: ws)).getLast? := by
      rw [unwords, List.getLast?_append, List.getLast?_cons_of_ne_nil hne,
        List.getLast?_eq_some_getLast hne, Option.some_or]
    rw [last] at hc
    exact getLast?_unwords (fun u hu => h u (List.mem_cons_of_mem _ hu)) c hc

/-! ## Blanks at the ends -/

theorem trimStart_of_head {c : Char} (hc : isBlank c = false) (s : Text) : trimStart (c :: s) = c :: s := by
  rw [trimStart, List.dropWhile_cons_of_neg (by simp [hc])]

theorem trimEnd_of_getLast : ∀ {s : Text}, (∀ c ∈ s.getLast?, isBlank c = false) → trimEnd s = s
  | [], _ => rfl
  | [c], h => by
    have hc : isBlank c = false := h c rfl
    simp [trimEnd, hc]
  | c :: d :: s, h => by
    have ih := trimEnd_of_getLast (s := d :: s) h
    rw [trimEnd, ih]
    simp

theorem trimEnd_append_blank {b : Char} (hb : isBlank b = true) : ∀ (s : Text), trimEnd (s ++ [b]) = trimEnd s
  | [] => by simp [trimEnd, hb]
  | c :: s => by rw [List.cons_append, trimEnd, trimEnd_append_blank hb s, trimEnd]

theorem trim_of_ends {s : Text} (first : ∀ c ∈ s.head?, isBlank c = false)
    (last : ∀ c ∈ s.getLast?, isBlank c = false) : trim s = s := by
  cases s with
  | nil => rfl
  | cons c s => rw [trim, trimStart_of_head (first c rfl), trimEnd_of_getLast last]

theorem trim_unwords {ws : List Text} (h : ∀ w ∈ ws, IsWord w) : trim (unwords ws) = unwords ws := by
  refine trim_of_ends (fun c hc => ?_) (getLast?_unwords h)
  cases ws with
  | nil => cases hc
  | cons w ws =>
    have hw := h w (List.mem_cons_self ..)
    obtain ⟨s, hs⟩ := unwords_cons w ws
    obtain ⟨d, v, rfl⟩ := List.exists_cons_of_ne_nil hw.1
    rw [hs] at hc
    exact hw.2 c (List.mem_of_mem_head? hc)

theorem blank_of_mem_unwords : ∀ {ws : List Text} {c : Char}, (∀ w ∈ ws, IsWord w) → c ∈ unwords ws →
    isBlank c = true → c = ' '
  | [], _, _, hc, _ => by cases hc
  | [w], c, h, hc, hb => by
    rw [(h w (List.mem_cons_self ..)).2 c hc] at hb
    cases hb
  | w :: v :: ws, c, h, hc, hb => by
    rcases List.mem_append.mp hc with hc | hc
    · rw [(h w (List.mem_cons_self ..)).2 c hc] at hb
      cases hb
    · rcases List.mem_cons.mp hc with rfl | hc
      · rfl
      · exact blank_of_mem_unwords (fun u hu => h u (List.mem_cons_of_mem _ hu)) hc hb

theorem trim_space_unwords {w : Text} {ws : List Text} (h : ∀ v ∈ w :: ws, IsWord v) :
    trim (' ' :: unwords (w :: ws)) = unwords (w :: ws) := by
  obtain ⟨s, hs⟩ := unwords_cons w ws
  obtain ⟨c, v, rfl⟩ := List.exists_cons_of_ne_nil (h w (List.mem_cons_self ..)).1
  have hc := (h _ (List.mem_cons_self ..)).2 c (List.mem_cons_self ..)
  have start : trimStart (' ' :: unwords ((c :: v) :: ws)) = unwords ((c :: v) :: ws) := by
    rw [trimStart, List.dropWhile_cons_of_pos isBlank_space, hs, List.cons_append,
      List.dropWhile_cons_of_neg (by simp [hc])]
  rw [trim, start, trimEnd_of_getLast (getLast?_unwords h)]

theorem trim_append_space {w : Text} (h : IsWord w) : trim (w ++ [' ']) = w := by
  obtain ⟨c, v, rfl⟩ := List.exists_cons_of_ne_nil h.1
  have hc := h.2 c (List.mem_cons_self ..)
  rw [trim, List.cons_append, trimStart_of_head hc, ← List.cons_append, trimEnd_append_blank isBlank_space,
    trimEnd_of_getLast fun d hd => h.2 d (List.mem_of_mem_getLast? hd)]

theorem splitWord_trimEnd (s : Text) : splitWord (trimEnd s) = splitWord s := by
  induction s with
  | nil => rfl
  | cons c s ih =>
    rw [trimEnd]
    split
    · next h =>
      simp only [Bool.and_eq_true, List.isEmpty_iff] at h
      rw [h.2] at ih
      rw [splitWord_cons, if_pos h.1, words_eq, ← ih]
      rfl
    · rw [splitWord_cons, splitWord_cons, words_eq, words_eq, ih]

theorem words_trimEnd (s : Text) : words (trimEnd s) = words s := by
  rw [words_eq, splitWord_trimEnd, ← words_eq]

theorem words_trim (s : Text) : words (trim s) = words s := by
  rw [trim, words_trimEnd, trimStart]
  induction s with
  | nil => rfl
  | cons c s ih =>
    cases hc : isBlank c with
    | true => rw [List.dropWhile_cons_of_pos hc, ih, words_blank hc]
    | false => rw [List.dropWhile_cons_of_neg (by simp [hc])]

theorem identifiers_trim (s : Text) : identifiers (trim s) = identifiers s := by
  rw [identifiers_eq_flatMap_words, words_trim, ← identifiers_eq_flatMap_words]

/-! ## Renaming word by word -/

theorem mem_renameIds {f : Text → Text} {s : Text} {c : Char} (h : c ∈ renameIds f s) :
    (∃ id ∈ identifiers s, c ∈ f id) ∨ c ∈ s := by
  obtain ⟨g, hg, hc⟩ := List.mem_flatMap.mp h
  cases g with
  | ident id => exact Or.inl ⟨id, mem_identifiers.mpr hg, hc⟩
  | other d =>
    right
    rw [← flatMap_segments s]
    exact List.mem_flatMap.mpr ⟨_, hg, hc⟩

theorem renameIds_ne_nil {f : Text → Text} {s : Text} (hf : ∀ id ∈ identifiers s, f id ≠ []) (hs : s ≠ []) :
    renameIds f s ≠ [] := by
  obtain ⟨c, t, rfl⟩ := List.exists_cons_of_ne_nil hs
  unfold renameIds
  by_cases hc : c = sigil
  · have hm : (sigil :: (scan true t).1) ∈ identifiers (c :: t) :=
      mem_identifiers.mpr (by rw [segments_cons, if_pos hc, hc]; exact List.mem_cons_self ..)
    have := hf _ hm
    rw [segments_cons, if_pos hc, List.flatMap_cons, hc]
    simp [Segment.rename, Segment.text, this]
  · rw [segments_other hc]
    simp [Segment.rename, Segment.text]

theorem isWord_renameIds {f : Text → Text} {w : Text} (hf : ∀ id ∈ identifiers w, IsWord (f id))
    (hw : IsWord w) : IsWord (renameIds f w) := by
  refine ⟨renameIds_ne_nil (fun id hid => (hf id hid).1) hw.1, fun c hc => ?_⟩
  rcases mem_renameIds hc with ⟨id, hid, hc⟩ | hc
  · exact (hf id hid).2 c hc
  · exact hw.2 c hc

/-- Renaming to names without blanks renames the words one by one. -/
theorem words_renameIds {f : Text → Text} {s : Text} (hf : ∀ id ∈ identifiers s, IsWord (f id)) :
    words (renameIds f s) = (words s).map (renameIds f) := by
  have step : ∀ (w : Text) (ws : List Text), (∀ id ∈ identifiers w, IsWord (f id)) →
      (pushWord w ws).map (renameIds f) = pushWord (renameIds f w) (ws.map (renameIds f)) := by
    intro w ws h
    by_cases hw : w = []
    · subst hw
      rfl
    · have := renameIds_ne_nil (fun id hid => (h id hid).1) hw
      simp [pushWord, hw, this]
  have clean : ∀ w : Text, (∀ id ∈ identifiers w, IsWord (f id)) → (∀ c ∈ w, isBlank c = false) →
      ∀ c ∈ renameIds f w, isBlank c = false := by
    intro w h hw c hc
    rcases mem_renameIds hc with ⟨id, hid, hc⟩ | hc
    · exact (h id hid).2 c hc
    · exact hw c hc
  induction s using blank_induction with
  | word w hw => rw [words_of_not_blank (clean w hf hw), words_of_not_blank hw, step w [] hf, List.map_nil]
  | blank w c t hw hc ih =>
    rw [identifiers_blank hc] at hf
    have hl : ∀ id ∈ identifiers w, IsWord (f id) := fun id h => hf id (List.mem_append_left _ h)
    have hr : ∀ id ∈ identifiers t, IsWord (f id) := fun id h => hf id (List.mem_append_right _ h)
    rw [renameIds_blank f hc, words_append_blank (clean w hl hw) hc, words_append_blank hw hc, ih hr,
      step w _ hl]

end SpirvLink.Text
