/-
  SpirvLink.Proofs.Text.Prefixing — a prefix behind every percent sign.

  The prefix holds no blank, no quotation mark and no equals sign (`Fits`). Then it neither
  ends an identifier nor moves the first equals sign, so prefixing goes on separately in
  everything that a text is cut into: identifiers (`identifiers_prefixIds`), words
  (`words_prefixIds`), both sides of an equals sign (`cutAt_prefixIds`) and what is left
  without the blanks at the ends (`trim_prefixIds`). No two texts become one
  (`prefixIds_injective`).

  Where every percent sign starts a text or follows a character that ends an identifier
  (`SigilsLead`), each identifier has one percent sign, and so has every part of the text.
-/

import Mathlib.Data.List.Chain
import SpirvLink.Proofs.Text.Cutting
import SpirvLink.Proofs.Text.Lines

namespace SpirvLink.Text

variable {p s t w : Text} {c : Char}

/-- A text that can be put into an identifier: no blank, quotation mark or equals sign. -/
def Fits (p : Text) : Prop :=
  ∀ c ∈ p, endsIdent c = false ∧ c ≠ '='

instance (p : Text) : Decidable (Fits p) :=
  List.decidableBAll _ _

theorem Fits.not_blank (h : Fits p) : ∀ c ∈ p, isBlank c = false := by
  intro c hc
  have := (h c hc).1
  simp only [endsIdent, Bool.or_eq_false_iff] at this
  exact this.1

theorem Fits.noEquals (h : Fits p) : '=' ∉ p :=
  fun hm => (h _ hm).2 rfl

/-! ## Character by character -/

@[simp] theorem prefixIds_nil : prefixIds p [] = [] := rfl

@[simp] theorem prefixIds_sigil : prefixIds p (sigil :: s) = sigil :: (p ++ prefixIds p s) := rfl

theorem prefixIds_cons (hc : c ≠ sigil) : prefixIds p (c :: s) = c :: prefixIds p s := by
  rw [prefixIds, List.flatMap_cons, if_neg hc]
  rfl

theorem prefixIds_append (s t : Text) : prefixIds p (s ++ t) = prefixIds p s ++ prefixIds p t :=
  List.flatMap_append

theorem prefixIds_of_no_sigil (h : sigil ∉ s) : prefixIds p s = s := by
  induction s with
  | nil => rfl
  | cons c s ih =>
    have hc : c ≠ sigil := fun e => h (e ▸ List.mem_cons_self ..)
    rw [prefixIds_cons hc, ih fun hm => h (List.mem_cons_of_mem _ hm)]

theorem head?_prefixIds (s : Text) : (prefixIds p s).head? = s.head? := by
  cases s with
  | nil => rfl
  | cons c s =>
    by_cases hc : c = sigil
    · rw [hc, prefixIds_sigil]
      rfl
    · rw [prefixIds_cons hc]
      rfl

theorem prefixIds_eq_nil : prefixIds p s = [] ↔ s = [] := by
  rw [← List.head?_eq_none_iff, head?_prefixIds, List.head?_eq_none_iff]

theorem prefixIds_injective (p : Text) : Function.Injective (prefixIds p) := by
  intro s
  induction s with
  | nil => exact fun t h => (prefixIds_eq_nil.mp h.symm).symm
  | cons c s ih =>
    intro t h
    have first : t.head? = some c := by rw [← head?_prefixIds, ← h, head?_prefixIds]; rfl
    obtain ⟨t, rfl⟩ := List.head?_eq_some_iff.mp first
    by_cases hc : c = sigil
    · rw [hc, prefixIds_sigil, prefixIds_sigil, List.cons.injEq, List.append_cancel_left_eq] at h
      rw [ih h.2]
    · rw [prefixIds_cons hc, prefixIds_cons hc, List.cons.injEq] at h
      rw [ih h.2]

theorem sigil_mem_prefixIds : sigil ∈ prefixIds p s ↔ sigil ∈ s := by
  constructor
  · intro h
    by_contra hs
    rw [prefixIds_of_no_sigil hs] at h
    exact hs h
  · exact fun h => List.mem_flatMap.mpr ⟨sigil, h, List.mem_cons_self ..⟩

theorem mem_prefixIds (h : c ∈ prefixIds p s) : c ∈ s ∨ c ∈ p := by
  obtain ⟨d, hd, hc⟩ := List.mem_flatMap.mp h
  split at hc
  · next he =>
    rcases List.mem_cons.mp hc with rfl | hc
    · exact Or.inl (he ▸ hd)
    · exact Or.inr hc
  · exact Or.inl (List.mem_singleton.mp hc ▸ hd)

/-- A text without percent signs comes from no other text. -/
theorem prefixIds_eq_iff (ht : sigil ∉ t) : prefixIds p s = t ↔ s = t := by
  constructor
  · rintro rfl
    exact (prefixIds_of_no_sigil fun hs => ht (sigil_mem_prefixIds.mpr hs)).symm
  · rintro rfl
    exact prefixIds_of_no_sigil ht

/-! ## Identifiers -/

theorem scan_prefixIds (hp : Fits p) (s : Text) :
    scan true (prefixIds p s) =
        (prefixIds p (scan true s).1, (scan true s).2.map (Segment.rename (prefixIds p))) ∧
      segments (prefixIds p s) = (segments s).map (Segment.rename (prefixIds p)) := by
  have solid : ∀ c ∈ p, endsIdent c = false := fun c hc => (hp c hc).1
  induction s with
  | nil => exact ⟨rfl, rfl⟩
  | cons c s ih =>
    by_cases hc : c = sigil
    · subst hc
      rw [prefixIds_sigil, segments_cons, segments_cons, if_pos rfl, if_pos rfl, scan_true_cons, scan_true_cons,
        if_neg (by simp [endsIdent_sigil]), if_neg (by simp [endsIdent_sigil]), scan_true_append solid, ih.1]
      exact ⟨rfl, rfl⟩
    · rw [prefixIds_cons hc, segments_other hc, segments_other hc, scan_true_cons, scan_true_cons]
      refine ⟨?_, by rw [ih.2]; rfl⟩
      split
      · rw [ih.2]
        rfl
      · rw [ih.1, prefixIds_cons hc]

theorem identifiers_prefixIds (hp : Fits p) (s : Text) :
    identifiers (prefixIds p s) = (identifiers s).map (prefixIds p) := by
  rw [identifiers, (scan_prefixIds hp s).2, identifiers, List.filterMap_map, List.map_filterMap]
  congr 1
  funext g
  cases g <;> rfl

/-- The identifier with a prefix behind its percent sign. -/
def withPrefix (p id : Text) : Text :=
  sigil :: p ++ id.tail

theorem withPrefix_starts (p id : Text) : sigil :: p <+: withPrefix p id :=
  List.prefix_append ..

/-- Identifiers with one prefix are told apart by what follows it. -/
theorem withPrefix_injective {id id' : Text} (h : id.head? = some sigil) (h' : id'.head? = some sigil)
    (heq : withPrefix p id = withPrefix p id') : id = id' := by
  obtain ⟨t, rfl⟩ := List.head?_eq_some_iff.mp h
  obtain ⟨t', rfl⟩ := List.head?_eq_some_iff.mp h'
  exact congrArg (sigil :: ·) (List.append_cancel_left heq)

/-- Where the first percent sign is the only one, the prefix goes behind it. -/
theorem prefixIds_eq_withPrefix {id : Text} (first : id.head? = some sigil) (one : sigil ∉ id.tail) :
    prefixIds p id = withPrefix p id := by
  obtain ⟨t, rfl⟩ := List.head?_eq_some_iff.mp first
  rw [prefixIds_sigil, prefixIds_of_no_sigil (s := t) one]
  rfl

/-- Where each identifier has one percent sign, prefixing renames the identifiers. -/
theorem prefixIds_eq (p : Text) {s : Text} (plain : ∀ id ∈ identifiers s, sigil ∉ id.tail) :
    prefixIds p s = renameIds (withPrefix p) s := by
  have whole : prefixIds p s = (segments s).flatMap fun g => prefixIds p g.text := by
    conv_lhs => rw [← flatMap_segments s]
    exact List.flatMap_assoc
  rw [whole, renameIds]
  refine List.flatMap_congr fun g hg => ?_
  cases g with
  | ident id =>
    have hid := mem_identifiers.mpr hg
    exact prefixIds_eq_withPrefix (isIdent_of_mem hid).1 (plain _ hid)
  | other c =>
    refine prefixIds_of_no_sigil fun hm => ?_
    exact ne_sigil_of_mem_segments (segments_separated s) hg (List.mem_singleton.mp hm).symm

/-! ## Words and blanks -/

theorem not_blank_prefixIds (hp : Fits p) (hw : ∀ c ∈ w, isBlank c = false) : ∀ c ∈ prefixIds p w, isBlank c = false := by
  intro c hc
  obtain ⟨d, hd, hc⟩ := List.mem_flatMap.mp hc
  split at hc
  · rcases List.mem_cons.mp hc with rfl | hc
    · decide
    · exact hp.not_blank c hc
  · exact List.mem_singleton.mp hc ▸ hw d hd

theorem words_prefixIds (hp : Fits p) (s : Text) : words (prefixIds p s) = (words s).map (prefixIds p) := by
  have push : ∀ (w : Text) (ws : List Text),
      pushWord (prefixIds p w) (ws.map (prefixIds p)) = (pushWord w ws).map (prefixIds p) := by
    intro w ws
    by_cases hw : w = []
    · rw [hw]
      rfl
    · simp [pushWord, hw, prefixIds_eq_nil]
  induction s using blank_induction with
  | word w hw =>
    rw [words_of_not_blank hw, words_of_not_blank (not_blank_prefixIds hp hw)]
    exact push w []
  | blank w c t hw hc ih =>
    have hs : c ≠ sigil := ne_sigil_of_endsIdent (endsIdent_of_isBlank hc)
    rw [prefixIds_append, prefixIds_cons hs, words_append_blank (not_blank_prefixIds hp hw) hc,
      words_append_blank hw hc, ih]
    exact push w _

theorem trimStart_prefixIds (s : Text) : trimStart (prefixIds p s) = prefixIds p (trimStart s) := by
  induction s with
  | nil => rfl
  | cons c s ih =>
    cases hc : isBlank c with
    | true =>
      have hs : c ≠ sigil := ne_sigil_of_endsIdent (endsIdent_of_isBlank hc)
      rw [prefixIds_cons hs, trimStart, trimStart, List.dropWhile_cons_of_pos hc, List.dropWhile_cons_of_pos hc]
      exact ih
    | false =>
      obtain ⟨t, ht⟩ := List.head?_eq_some_iff.mp (head?_prefixIds (p := p) (c :: s))
      rw [trimStart_of_head hc, ht, trimStart_of_head hc]

theorem trimEnd_prefixIds (hp : Fits p) (s : Text) : trimEnd (prefixIds p s) = prefixIds p (trimEnd s) := by
  induction s with
  | nil => rfl
  | cons c s ih =>
    by_cases hc : c = sigil
    · subst hc
      have solid : ∀ {u : Text}, (∀ c ∈ u, isBlank c = false) → ∀ v : Text, trimEnd (u ++ v) = u ++ trimEnd v := by
        intro u hu v
        by_cases hv : trimEnd v = []
        · induction u with
          | nil => rfl
          | cons d u ih =>
            rw [List.cons_append, trimEnd, ih fun e he => hu e (List.mem_cons_of_mem _ he)]
            simp [hu d (List.mem_cons_self ..)]
        · exact trimEnd_append_of_ne hv u
      have first : ∀ v : Text, trimEnd (sigil :: v) = sigil :: trimEnd v := by
        intro v
        have notBlank : isBlank sigil = false := by decide
        exact solid (fun c hc => List.mem_singleton.mp hc ▸ notBlank) v
      rw [prefixIds_sigil, first, first, solid hp.not_blank, ih, prefixIds_sigil]
    · rw [prefixIds_cons hc, trimEnd, trimEnd, ih]
      simp only [List.isEmpty_iff, Bool.and_eq_true, prefixIds_eq_nil]
      split
      · rfl
      · rw [prefixIds_cons hc]

theorem trim_prefixIds (hp : Fits p) (s : Text) : trim (prefixIds p s) = prefixIds p (trim s) := by
  rw [trim, trimStart_prefixIds, trimEnd_prefixIds hp, trim]

theorem cutAt_prefixIds (hp : '=' ∉ p) (s : Text) :
    cutAt '=' (prefixIds p s) = (cutAt '=' s).map fun (before, after) => (prefixIds p before, prefixIds p after) := by
  have skip : ∀ {u : Text}, '=' ∉ u → ∀ v : Text,
      cutAt '=' (u ++ v) = (cutAt '=' v).map fun (before, after) => (u ++ before, after) := by
    intro u hu v
    induction u with
    | nil => simp
    | cons d u ih =>
      rw [List.cons_append, cutAt, if_neg fun e : d = '=' => hu (e ▸ List.mem_cons_self ..),
        ih fun hm => hu (List.mem_cons_of_mem _ hm), Option.map_map]
      rfl
  induction s with
  | nil => rfl
  | cons c s ih =>
    by_cases hc : c = sigil
    · subst hc
      have outside : '=' ∉ sigil :: p := by simpa [sigil] using hp
      rw [prefixIds_sigil, ← List.cons_append, skip outside, ih, cutAt, if_neg (by decide), Option.map_map, Option.map_map]
      rfl
    · rw [prefixIds_cons hc, cutAt, cutAt, ih]
      split
      · rfl
      · rw [Option.map_map, Option.map_map]
        refine congrArg (Option.map · _) (funext fun h => ?_)
        exact congrArg (·, _) (prefixIds_cons hc).symm

/-! ## Percent signs that start identifiers -/

/-- Every percent sign starts the text or follows a blank or a quotation mark. -/
def SigilsLead (s : Text) : Prop :=
  s.IsChain fun c d => d = sigil → endsIdent c = true

instance (s : Text) : Decidable (SigilsLead s) :=
  inferInstanceAs (Decidable (List.IsChain _ _))

theorem SigilsLead.within (h : SigilsLead s) (ht : t <:+: s) : SigilsLead t :=
  List.IsChain.infix h ht

theorem SigilsLead.trim (h : SigilsLead s) : SigilsLead (trim s) :=
  h.within ((trimEnd_starts _).isInfix.trans (List.dropWhile_suffix _).isInfix)

/-- An unbroken text has no percent sign but the first. -/
theorem SigilsLead.not_mem_tail (h : SigilsLead s) (hs : ∀ c ∈ s, endsIdent c = false) : sigil ∉ s.tail := by
  induction s with
  | nil => exact List.not_mem_nil
  | cons c s ih =>
    cases s with
    | nil => exact List.not_mem_nil
    | cons d s =>
      obtain ⟨hd, h⟩ := List.isChain_cons_cons.mp h
      have open_ := hs c (List.mem_cons_self ..)
      have rest := ih h fun e he => hs e (List.mem_cons_of_mem _ he)
      rintro hm
      rcases List.mem_cons.mp hm with e | hm
      · rw [hd e.symm] at open_
        cases open_
      · exact rest hm

theorem SigilsLead.identifiers (h : SigilsLead s) : ∀ id ∈ identifiers s, sigil ∉ id.tail := by
  intro id hid
  obtain ⟨gs, gs', heq⟩ := List.append_of_mem (mem_identifiers.mp hid)
  have inside : id <:+: s := by
    refine ⟨gs.flatMap Segment.text, gs'.flatMap Segment.text, ?_⟩
    conv_rhs => rw [← flatMap_segments s, heq]
    simp [Segment.text]
  exact (h.within inside).not_mem_tail (isIdent_of_mem hid).2

end SpirvLink.Text
