/-
  SpirvLink.Proofs.Text.Literal — what a literal replacement does to words and identifiers.

  `Replaced` follows a replacement from left to right: an occurrence of the pattern, or a
  character of no occurrence. A replacement goes on separately on both sides of a character
  that the pattern does not hold (`replaceAll_cut`). A pattern without blanks is replaced
  word by word (`words_replaceAll`); one that starts with a space changes the start of a
  word that follows a space, and never the first word of a text (`words_replaceAll_space`).
  Neither makes or unmakes a percent sign, so what stands behind each one
  (`Replaced.marked`) and the identifiers without equals signs (`Replaced.equalsFree`) stay.
-/

import Mathlib.Data.List.Forall2
import SpirvLink.Text.Literal
import SpirvLink.Proofs.Text.Cutting

namespace SpirvLink.Text

variable {pattern new s s' t u : Text} {c d : Char}

/-! ## A replacement from left to right -/

inductive Replaced (pattern new : Text) : Text → Text → Prop
  | nil : Replaced pattern new [] []
  | found {s s' : Text} : Replaced pattern new s s' → Replaced pattern new (pattern ++ s) (new ++ s')
  | kept {c : Char} {s s' : Text} : Replaced pattern new s s' → Replaced pattern new (c :: s) (c :: s')

theorem piecesAfter_drop (n : Nat) (s : Text) : piecesAfter pattern n s = piecesAfter pattern 0 (s.drop n) := by
  induction n generalizing s with
  | zero => rfl
  | succ n ih =>
    cases s with
    | nil => simp [piecesAfter]
    | cons c s => rw [piecesAfter, ih, List.drop_succ_cons]

theorem replaceAll_nil (h : pattern ≠ []) : replaceAll pattern new [] = [] := by
  rw [replaceAll, pieces, if_neg (by simpa using h), piecesAfter]
  rfl

theorem replaceAll_cons (h : pattern ≠ []) (c : Char) (s : Text) : replaceAll pattern new (c :: s) =
    if pattern <+: c :: s then new ++ replaceAll pattern new ((c :: s).drop pattern.length)
    else c :: replaceAll pattern new s := by
  have nonempty : ¬ pattern.isEmpty = true := by simpa using h
  obtain ⟨d, p, rfl⟩ := List.exists_cons_of_ne_nil h
  simp only [replaceAll, pieces, if_neg nonempty, piecesAfter, List.isPrefixOf_iff_prefix]
  split
  · rw [List.flatMap_cons, piecesAfter_drop]
    rfl
  · rfl

theorem replaceAll_append (h : pattern ≠ []) (s : Text) :
    replaceAll pattern new (pattern ++ s) = new ++ replaceAll pattern new s := by
  obtain ⟨d, p, rfl⟩ := List.exists_cons_of_ne_nil h
  rw [List.cons_append, replaceAll_cons h, if_pos ⟨s, rfl⟩, ← List.cons_append, List.drop_left]

/-- To prove something of every replacement, prove it of the empty text, of a text that starts
    with the pattern, and of one that does not. -/
theorem replaceAll_induction {P : Text → Text → Prop} (h : pattern ≠ []) (nil : P [] [])
    (found : ∀ r, P r (replaceAll pattern new r) → P (pattern ++ r) (new ++ replaceAll pattern new r))
    (kept : ∀ c r, ¬ pattern <+: c :: r → P r (replaceAll pattern new r) → P (c :: r) (c :: replaceAll pattern new r))
    (s : Text) : P s (replaceAll pattern new s) := by
  induction hn : s.length using Nat.strongRecOn generalizing s with
  | _ n ih =>
    cases s with
    | nil =>
      rw [replaceAll_nil h]
      exact nil
    | cons c s =>
      by_cases hp : pattern <+: c :: s
      · obtain ⟨r, hr⟩ := hp
        have shorter : r.length < n := by
          have := List.length_pos_iff.mpr h
          rw [← hn, ← hr, List.length_append]
          omega
        rw [← hr, replaceAll_append h]
        exact found r (ih r.length shorter r rfl)
      · rw [replaceAll_cons h, if_neg hp]
        exact kept c s hp (ih s.length (by rw [← hn]; exact Nat.lt_succ_self _) s rfl)

theorem replaced_replaceAll (h : pattern ≠ []) (s : Text) : Replaced pattern new s (replaceAll pattern new s) :=
  replaceAll_induction h .nil (fun _ => .found) (fun _ _ _ => .kept) s

theorem Replaced.mem (h : Replaced pattern new s s') (hc : c ∈ s') : c ∈ s ∨ c ∈ new := by
  induction h with
  | nil => cases hc
  | found _ ih =>
    rcases List.mem_append.mp hc with hc | hc
    · exact Or.inr hc
    · exact (ih hc).imp_left (List.mem_append_right _)
  | kept _ ih =>
    rcases List.mem_cons.mp hc with rfl | hc
    · exact Or.inl (List.mem_cons_self ..)
    · exact (ih hc).imp_left (List.mem_cons_of_mem _)

/-- An occurrence at the start of a text ends before a character that the pattern does not hold. -/
theorem prefix_cut (hd : d ∉ pattern) : pattern <+: s ++ d :: t ↔ pattern <+: s := by
  refine ⟨fun hp => ?_, fun hp => hp.trans (List.prefix_append _ _)⟩
  rcases List.prefix_or_prefix_of_prefix hp (List.prefix_append s (d :: t)) with hp' | ⟨r, rfl⟩
  · exact hp'
  · obtain ⟨q, hq⟩ := hp
    rw [List.append_assoc] at hq
    cases r with
    | nil => exact ⟨[], by simp⟩
    | cons e r =>
      cases List.append_cancel_left hq
      exact absurd (List.mem_append_right _ (List.mem_cons_self ..)) hd

/-- Where the pattern and the new text start alike, so do the texts. -/
theorem Replaced.head? (h : Replaced pattern new s s') (hp : pattern.head? = some d) (hn : new.head? = some d) :
    s'.head? = s.head? := by
  cases h with
  | nil => rfl
  | found _ =>
    obtain ⟨p, rfl⟩ := List.head?_eq_some_iff.mp hp
    obtain ⟨n, rfl⟩ := List.head?_eq_some_iff.mp hn
    rfl
  | kept _ => rfl

/-- What the pattern and the new text start with has to be in a text for a replacement to
    make or unmake the text, or to change how it begins. -/
theorem Replaced.prefix_iff (h : Replaced pattern new s s') (hp : pattern.head? = some d) (hn : new.head? = some d)
    (hu : d ∉ u) : (u <+: s' ↔ u <+: s) ∧ (s' = u ↔ s = u) := by
  obtain ⟨p, rfl⟩ := List.head?_eq_some_iff.mp hp
  obtain ⟨n, rfl⟩ := List.head?_eq_some_iff.mp hn
  have outside : ∀ {v : Text}, d ∉ v → ∀ t : Text, (v <+: d :: t ↔ v = []) ∧ d :: t ≠ v := by
    intro v hv t
    refine ⟨⟨fun hpre => ?_, fun he => he ▸ List.nil_prefix⟩, fun he => hv (he ▸ List.mem_cons_self ..)⟩
    cases v with
    | nil => rfl
    | cons c v => exact absurd (List.mem_cons.mpr (Or.inl (List.cons_prefix_cons.mp hpre).1.symm)) hv
  induction h generalizing u with
  | nil => exact ⟨Iff.rfl, Iff.rfl⟩
  | found _ _ =>
    exact ⟨(outside hu _).1.trans (outside hu _).1.symm, iff_of_false (outside hu _).2 (outside hu _).2⟩
  | @kept c s s' _ ih =>
    cases u with
    | nil => simp
    | cons e u =>
      have ih := ih fun hm => hu (List.mem_cons_of_mem _ hm)
      rw [List.cons_prefix_cons, List.cons_prefix_cons, ih.1, List.cons.injEq, List.cons.injEq, ih.2]
      exact ⟨Iff.rfl, Iff.rfl⟩

theorem Replaced.eq_nil (h : Replaced pattern new s s') (hne : new ≠ []) (hs : s' = []) : s = [] := by
  cases h with
  | nil => rfl
  | found _ => exact absurd (List.append_eq_nil_iff.mp hs).1 hne
  | kept _ => cases hs

/-- A replacement does not end a text in a blank, where the new text does not. -/
theorem Replaced.getLast? (h : Replaced pattern new s s') (hne : new ≠ []) (hn : new.getLast?.any isBlank = false)
    (hs : ∀ c ∈ s.getLast?, isBlank c = false) : ∀ c ∈ s'.getLast?, isBlank c = false := by
  have ends : ∀ c ∈ new.getLast?, isBlank c = false := by
    intro c hc
    rw [Option.mem_def.mp hc] at hn
    exact hn
  have join : ∀ {u u' t t' : Text}, (t' = [] → ∀ c ∈ u'.getLast?, isBlank c = false) →
      ((∀ c ∈ t.getLast?, isBlank c = false) → ∀ c ∈ t'.getLast?, isBlank c = false) →
      (∀ c ∈ (u ++ t).getLast?, isBlank c = false) → ∀ c ∈ (u' ++ t').getLast?, isBlank c = false := by
    intro u u' t t' empty rest whole c hc
    have tail : ∀ c ∈ t.getLast?, isBlank c = false := by
      intro d hd
      exact whole d (by rw [List.getLast?_append, hd]; rfl)
    rw [List.getLast?_append] at hc
    cases hl : t'.getLast? with
    | none =>
      rw [hl] at hc
      exact empty (List.getLast?_eq_none_iff.mp hl) c hc
    | some e =>
      rw [hl] at hc
      exact rest tail c (hl ▸ hc)
  induction h with
  | nil => exact hs
  | found _ ih => exact join (fun _ => ends) ih hs
  | @kept c s s' hrest ih =>
    refine @join [c] [c] s s' (fun he => ?_) ih hs
    rw [hrest.eq_nil hne he] at hs
    exact hs

/-- Nothing is replaced across a character that the pattern does not hold. -/
theorem replaceAll_cut (h : pattern ≠ []) (hd : d ∉ pattern) (s t : Text) :
    replaceAll pattern new (s ++ d :: t) = replaceAll pattern new s ++ d :: replaceAll pattern new t := by
  refine replaceAll_induction (P := fun s s' => replaceAll pattern new (s ++ d :: t) = s' ++ d :: replaceAll pattern new t) h
    ?_ (fun r ih => ?_) (fun c r hp ih => ?_) s
  · have starts : ¬ pattern <+: d :: t := fun hp => h (List.prefix_nil.mp ((prefix_cut (s := []) hd).mp hp))
    rw [List.nil_append, replaceAll_cons h, if_neg starts]
    rfl
  · rw [List.append_assoc, replaceAll_append h, ih, List.append_assoc]
  · have hp' : ¬ pattern <+: c :: (r ++ d :: t) := fun hq => hp ((prefix_cut (s := c :: r) hd).mp hq)
    rw [List.cons_append, replaceAll_cons h, if_neg hp', ih]
    rfl

/-- Without the first character of the pattern nothing is replaced. -/
theorem replaceAll_of_not_mem (h : pattern ≠ []) (hs : ∀ c ∈ pattern.head?, c ∉ s) : replaceAll pattern new s = s := by
  obtain ⟨d, p, rfl⟩ := List.exists_cons_of_ne_nil h
  have hd : d ∉ s := hs d rfl
  induction s with
  | nil => exact replaceAll_nil h
  | cons c s ih =>
    rw [replaceAll_cons h, if_neg, ih (fun e he => by cases he; exact fun hm => hd (List.mem_cons_of_mem _ hm))
      fun hm => hd (List.mem_cons_of_mem _ hm)]
    rintro ⟨r, hr⟩
    cases hr
    exact hd (List.mem_cons_self ..)

/-! ## Words -/

/-- A pattern without blanks is replaced in each word alone. -/
theorem words_replaceAll (h : pattern ≠ []) (hp : ∀ c ∈ pattern, isBlank c = false) (hn : IsWord new) (s : Text) :
    words (replaceAll pattern new s) = (words s).map (replaceAll pattern new) := by
  have solid : ∀ {w : Text}, (∀ c ∈ w, isBlank c = false) → ∀ c ∈ replaceAll pattern new w, isBlank c = false :=
    fun hw c hc => ((replaced_replaceAll h _).mem hc).elim (hw c) (hn.2 c)
  have nonempty : ∀ {w : Text}, IsWord w → IsWord (replaceAll pattern new w) := by
    intro w hw
    refine ⟨?_, solid hw.2⟩
    obtain ⟨c, v, rfl⟩ := List.exists_cons_of_ne_nil hw.1
    rw [replaceAll_cons h]
    split
    · exact fun he => hn.1 (List.append_eq_nil_iff.mp he).1
    · exact List.cons_ne_nil _ _
  have push : ∀ {w : Text} (ws : List Text), (∀ c ∈ w, isBlank c = false) →
      pushWord (replaceAll pattern new w) (ws.map (replaceAll pattern new)) =
        (pushWord w ws).map (replaceAll pattern new) := by
    intro w ws hw
    by_cases he : w = []
    · rw [he, replaceAll_nil h]
      rfl
    · rw [pushWord_of_isWord ⟨he, hw⟩, pushWord_of_isWord (nonempty ⟨he, hw⟩), List.map_cons]
  induction s using blank_induction with
  | word w hw =>
    rw [words_of_not_blank hw, words_of_not_blank (solid hw)]
    exact push [] hw
  | blank w c t hw hc ih =>
    have outside : c ∉ pattern := fun hm => by
      rw [hp c hm] at hc
      cases hc
    rw [replaceAll_cut h outside, words_append_blank (solid hw) hc, words_append_blank hw hc, ih]
    exact push _ hw

/-- A word that was put in the place of another, or starts with one that was. -/
def StartsAnew (old new w w' : Text) : Prop :=
  w' = w ∨ ∃ r, w = old ++ r ∧ w' = new ++ r

/-- A pattern that starts with a space is replaced at the start of words, but not of the first. -/
theorem splitWord_replaced {old : Text} (ho : IsWord old) (hn : IsWord new)
    (h : Replaced (' ' :: old) (' ' :: new) s s') : (splitWord s').1 = (splitWord s).1 ∧
      List.Forall₂ (StartsAnew old new) (splitWord s).2 (splitWord s').2 := by
  induction h with
  | nil => exact ⟨rfl, .nil⟩
  | @found s s' _ ih =>
    have start : ∀ {w : Text}, IsWord w → ∀ t, splitWord (' ' :: w ++ t) = ([], (w ++ (splitWord t).1) :: (splitWord t).2) := by
      intro w hw t
      rw [List.cons_append, splitWord_cons, if_pos isBlank_space, words_eq, splitWord_append hw.2, pushWord,
        if_neg (by simp [hw.1])]
    rw [start ho, start hn, ih.1]
    exact ⟨rfl, .cons (Or.inr ⟨_, rfl, rfl⟩) ih.2⟩
  | @kept c s s' _ ih =>
    rw [splitWord_cons, splitWord_cons]
    split
    · refine ⟨rfl, ?_⟩
      rw [words_eq, words_eq, ih.1]
      unfold pushWord
      split
      · exact ih.2
      · exact .cons (Or.inl rfl) ih.2
    · exact ⟨congrArg (c :: ·) ih.1, ih.2⟩

theorem words_replaceAll_space {old : Text} (ho : IsWord old) (hn : IsWord new) (s : Text) :
    List.Forall₂ (StartsAnew old new) (words s) (words (replaceAll (' ' :: old) (' ' :: new) s)) := by
  obtain ⟨first, rest⟩ := splitWord_replaced ho hn (replaced_replaceAll (List.cons_ne_nil _ _) s)
  rw [words_eq, words_eq, first]
  unfold pushWord
  split
  · exact rest
  · exact .cons (Or.inl rfl) rest

/-! ## Percent signs and equals signs -/

/-- Every percent sign has this character behind it. -/
def Marked (d : Char) : Text → Prop
  | [] => True
  | c :: s => (c = sigil → s.head? = some d) ∧ Marked d s

theorem Marked.after (h : Marked d s) {before after : Text} (hs : s = before ++ sigil :: after) :
    after.head? = some d := by
  subst hs
  induction before with
  | nil => exact h.1 rfl
  | cons c before ih => exact ih h.2

theorem marked_append (ht : sigil ∉ t) : Marked d (t ++ s) ↔ Marked d s := by
  induction t with
  | nil => exact Iff.rfl
  | cons c t ih =>
    have hc : c ≠ sigil := fun e => ht (e ▸ List.mem_cons_self ..)
    rw [List.cons_append, Marked, ih fun hm => ht (List.mem_cons_of_mem _ hm)]
    exact ⟨fun h => h.2, fun h => ⟨fun e => absurd e hc, h⟩⟩

theorem marked_prefixIds {p : Text} (hp : p.head? = some d) (hs : sigil ∉ p) (s : Text) : Marked d (prefixIds p s) := by
  induction s with
  | nil => trivial
  | cons c s ih =>
    rw [prefixIds, List.flatMap_cons]
    split
    · obtain ⟨q, rfl⟩ := List.head?_eq_some_iff.mp hp
      exact ⟨fun _ => rfl, (marked_append hs).mpr ih⟩
    · next hc => exact ⟨fun e => absurd e hc, ih⟩

theorem Replaced.marked (h : Replaced pattern new s s') (hne : pattern ≠ []) (hp : sigil ∉ pattern) (hn : sigil ∉ new)
    (hd : pattern.head? ≠ some d) (hs : Marked d s) : Marked d s' := by
  induction h with
  | nil => trivial
  | found _ ih => exact (marked_append hn).mpr (ih ((marked_append hp).mp hs))
  | @kept c s s' hrest ih =>
    refine ⟨fun hc => ?_, ih hs.2⟩
    have first := hs.1 hc
    cases hrest with
    | nil => cases first
    | found _ =>
      obtain ⟨e, q, rfl⟩ := List.exists_cons_of_ne_nil hne
      exact absurd first hd
    | kept _ => exact first

/-- A text that neither starts nor ends an identifier and brings no equals sign into one. -/
def Inner (w : Text) : Prop :=
  ∀ c ∈ w, endsIdent c = false ∧ c ≠ sigil ∧ c ≠ '='

instance (w : Text) : Decidable (Inner w) :=
  List.decidableBAll _ _

theorem equalsFreeFrom_inner (hw : Inner t) (inside : Bool) :
    EqualsFreeFrom inside (t ++ s) ↔ EqualsFreeFrom inside s := by
  induction t with
  | nil => exact Iff.rfl
  | cons c t ih =>
    obtain ⟨hends, hsigil, hequals⟩ := hw c (List.mem_cons_self ..)
    have ih := ih fun d hd => hw d (List.mem_cons_of_mem _ hd)
    cases inside with
    | false => rw [List.cons_append, equalsFreeFrom_false_cons, if_neg hsigil, ih]
    | true =>
      rw [List.cons_append, equalsFreeFrom_true_cons, if_neg (by simp [hends]), ih]
      exact and_iff_right hequals

theorem equalsFreeFrom_space (inside : Bool) : EqualsFreeFrom inside (' ' :: s) ↔ EqualsFreeFrom false s := by
  cases inside with
  | false => rw [equalsFreeFrom_false_cons, if_neg (by decide)]
  | true => rw [equalsFreeFrom_true_cons, if_pos (by decide)]

/-- A replacement that reads on as before brings no equals sign into an identifier. -/
theorem Replaced.equalsFree (h : Replaced pattern new s s')
    (same : ∀ inside t t', (∀ b, EqualsFreeFrom b t → EqualsFreeFrom b t') →
      EqualsFreeFrom inside (pattern ++ t) → EqualsFreeFrom inside (new ++ t')) :
    ∀ inside, EqualsFreeFrom inside s → EqualsFreeFrom inside s' := by
  induction h with
  | nil => exact fun _ h => h
  | found _ ih => exact fun inside h => same inside _ _ ih h
  | @kept c s s' _ ih =>
    intro inside h
    cases inside with
    | false =>
      rw [equalsFreeFrom_false_cons] at h ⊢
      split
      · next hc => exact ih true (by rwa [if_pos hc] at h)
      · next hc => exact ih false (by rwa [if_neg hc] at h)
    | true =>
      rw [equalsFreeFrom_true_cons] at h ⊢
      split
      · next hc => exact ih false (by rwa [if_pos hc] at h)
      · next hc =>
        rw [if_neg hc] at h
        exact ⟨h.1, ih true h.2⟩

theorem equalsFree_replaceAll (h : pattern ≠ []) (hp : Inner pattern) (hn : Inner new) (hs : EqualsFree s) :
    EqualsFree (replaceAll pattern new s) := by
  refine equalsFreeFrom_false.mp ((replaced_replaceAll h s).equalsFree (fun inside t t' ih ht => ?_) false
    (equalsFreeFrom_false.mpr hs))
  exact (equalsFreeFrom_inner hn inside).mpr (ih inside ((equalsFreeFrom_inner hp inside).mp ht))

theorem equalsFree_replaceAll_space (hp : Inner pattern) (hn : Inner new) (hs : EqualsFree s) :
    EqualsFree (replaceAll (' ' :: pattern) (' ' :: new) s) := by
  refine equalsFreeFrom_false.mp ((replaced_replaceAll (List.cons_ne_nil _ _) s).equalsFree (fun inside t t' ih ht => ?_) false
    (equalsFreeFrom_false.mpr hs))
  rw [List.cons_append, equalsFreeFrom_space, equalsFreeFrom_inner hp] at ht
  rw [List.cons_append, equalsFreeFrom_space, equalsFreeFrom_inner hn]
  exact ih false ht

end SpirvLink.Text
