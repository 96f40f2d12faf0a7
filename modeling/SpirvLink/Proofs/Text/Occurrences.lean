/-
  SpirvLink.Proofs.Text.Occurrences — where a text occurs after a literal replacement.

  A replacement reads a text once, from left to right, and takes occurrences that do not
  overlap. So it can leave some. A text that shares no character with them is where it was
  (`Replaced.infix_iff`). A word behind a mark is left where the new word starts the old one
  and the rest of the old one stood behind an occurrence (`infix_replaceAll_word`). Between two
  marks, a word is left where two occurrences shared a mark (`infix_replaceAll_between`).
  Nothing is counted exactly if nothing occurs (`countLiteral_eq_zero_iff`).
-/

import SpirvLink.Proofs.Text.Replacing

namespace SpirvLink.Text

variable {pattern new old s s' t u w : Text} {c d : Char}

/-! ## Occurrences in a text of two parts -/

/-- An occurrence does not start inside a text without its first character. -/
theorem infix_append_iff (hw : c ∉ w) : c :: u <:+: w ++ t ↔ c :: u <:+: t := by
  induction w with
  | nil => exact Iff.rfl
  | cons e w ih =>
    have start : ¬ c :: u <+: e :: (w ++ t) := fun h =>
      hw (List.mem_cons.mpr (Or.inl (List.cons_prefix_cons.mp h).1))
    rw [List.cons_append, List.infix_cons_iff, or_iff_right start]
    exact ih fun hm => hw (List.mem_cons_of_mem _ hm)

/-- Behind one such character it starts there, or later. -/
theorem infix_cons_append_iff (hw : c ∉ w) : c :: u <:+: c :: (w ++ t) ↔ u <+: w ++ t ∨ c :: u <:+: t := by
  rw [List.infix_cons_iff, List.cons_prefix_cons, and_iff_right rfl, infix_append_iff hw]

/-- Two texts that reach a character are compared up to it first. -/
theorem prefix_reach_iff (hu : d ∉ u) (hw : d ∉ w) : u ++ d :: s <+: w ++ d :: t ↔ u = w ∧ s <+: t := by
  constructor
  · rintro ⟨r, hr⟩
    rw [List.append_assoc, List.cons_append] at hr
    have cut : cutAt d (w ++ d :: t) = some (u, s ++ r) := cutAt_eq_some.mpr ⟨hr.symm, hu⟩
    rw [cutAt_eq_some.mpr ⟨rfl, hw⟩] at cut
    cases cut
    exact ⟨rfl, List.prefix_append ..⟩
  · rintro ⟨rfl, h⟩
    exact (List.prefix_append_right_inj _).mpr (List.cons_prefix_cons.mpr ⟨rfl, h⟩)

/-- A text that starts two others, one behind the other, and is not in the first goes on from it. -/
theorem prefix_append_iff (h : ¬ old <:+: new) : old <+: new ++ t ↔ ∃ x, old = new ++ x ∧ x <+: t := by
  constructor
  · intro hp
    rcases List.prefix_or_prefix_of_prefix hp (List.prefix_append new t) with hp' | ⟨x, rfl⟩
    · exact absurd hp'.isInfix h
    · exact ⟨x, rfl, (List.prefix_append_right_inj new).mp hp⟩
  · rintro ⟨x, rfl, hx⟩
    exact (List.prefix_append_right_inj new).mpr hx

/-! ## What a replacement does not touch -/

/-- A text that no occurrence of the pattern or of the new text overlaps is found after a
    replacement where it was before. -/
theorem Replaced.infix_iff (h : Replaced pattern new s s') (hp : pattern.head? = some d) (hn : new.head? = some d)
    (hd : d ∉ c :: u) (outside : c ∉ pattern) (outside' : c ∉ new) : c :: u <:+: s' ↔ c :: u <:+: s := by
  induction h with
  | nil => exact Iff.rfl
  | found _ ih => rw [infix_append_iff outside, infix_append_iff outside', ih]
  | kept h ih =>
    rw [List.infix_cons_iff, List.infix_cons_iff, ih, List.cons_prefix_cons, List.cons_prefix_cons,
      (h.prefix_iff hp hn fun hm => hd (List.mem_cons_of_mem _ hm)).1]

/-- Nothing is replaced before the first character that the pattern starts with. -/
theorem replaceAll_append_of_not_mem (hs : d ∉ s) (t : Text) :
    replaceAll (d :: pattern) new (s ++ t) = s ++ replaceAll (d :: pattern) new t := by
  induction s with
  | nil => rfl
  | cons c s ih =>
    have start : ¬ d :: pattern <+: c :: (s ++ t) := fun h =>
      hs (List.mem_cons.mpr (Or.inl (List.cons_prefix_cons.mp h).1))
    rw [List.cons_append, replaceAll_cons (List.cons_ne_nil _ _), if_neg start, ih fun hm => hs (List.mem_cons_of_mem _ hm)]
    rfl

/-- The start of a text up to a mark is what it was. -/
theorem prefix_replaceAll_iff (hu : d ∉ u) (s : Text) :
    u ++ [d] <+: replaceAll (d :: pattern) (d :: new) s ↔ u ++ [d] <+: s := by
  refine ⟨(replaced_replaceAll (List.cons_ne_nil _ _) s).starts hu, ?_⟩
  rintro ⟨r, rfl⟩
  have replaced : Replaced (d :: pattern) (d :: new) (d :: r) (replaceAll (d :: pattern) (d :: new) (d :: r)) :=
    replaced_replaceAll (List.cons_ne_nil d pattern) (d :: r)
  have first := replaced.head? rfl rfl
  obtain ⟨r', hr'⟩ := List.head?_eq_some_iff.mp (first.trans List.head?_cons)
  rw [List.append_assoc, List.singleton_append, replaceAll_append_of_not_mem hu, hr']
  exact (List.prefix_append_right_inj u).mpr (List.prefix_append [d] r')

/-! ## What a replacement leaves -/

/-- A word behind a mark is left only where the new word starts it and what stood behind an
    occurrence ends it. -/
theorem infix_replaceAll_word (ho : c ∉ old) (hn : c ∉ new) (apart : ¬ old <:+: new) (s : Text) :
    c :: old <:+: replaceAll (c :: old) (c :: new) s ↔ ∃ x, old = new ++ x ∧ c :: (old ++ x) <:+: s := by
  have whole : c :: old ≠ [] := List.cons_ne_nil _ _
  refine replaceAll_induction (P := fun s s' => c :: old <:+: s' ↔ ∃ x, old = new ++ x ∧ c :: (old ++ x) <:+: s)
    whole (by simp) (fun r ih => ?_) (fun e r hp ih => ?_) s
  · have rest : ∀ x, old = new ++ x → (x <+: replaceAll (c :: old) (c :: new) r ↔ x <+: r) := fun x hx =>
      ((replaced_replaceAll whole r).prefix_iff rfl rfl fun hm => ho (hx ▸ List.mem_append_right _ hm)).1
    rw [List.cons_append, infix_cons_append_iff hn, prefix_append_iff apart, ih, ← exists_or]
    refine exists_congr fun x => ?_
    rw [← and_or_left, List.cons_append, infix_cons_append_iff ho, List.prefix_append_right_inj]
    exact and_congr_right fun hx => or_congr_left (rest x hx)
  · have start : ¬ c :: old <+: e :: replaceAll (c :: old) (c :: new) r := by
      rw [List.cons_prefix_cons, ((replaced_replaceAll whole r).prefix_iff rfl rfl ho).1, ← List.cons_prefix_cons]
      exact hp
    rw [List.infix_cons_iff, or_iff_right start, ih]
    refine exists_congr fun x => and_congr_right fun _ => ?_
    have start' : ¬ c :: (old ++ x) <+: e :: r := fun h => hp ((List.prefix_append (c :: old) x).trans h)
    rw [List.infix_cons_iff, or_iff_right start']

/-- Where pattern and new text stand between two marks, an occurrence is left only where two
    shared a mark. -/
theorem infix_replaceAll_between (ho : d ∉ old) (hn : d ∉ new) (hne : old ≠ new) (s : Text) :
    d :: (old ++ [d]) <:+: replaceAll (d :: (old ++ [d])) (d :: (new ++ [d])) s ↔
      d :: (old ++ d :: (old ++ [d])) <:+: s := by
  have longer : old ++ [d] <+: old ++ d :: (old ++ [d]) := ⟨old ++ [d], by simp⟩
  refine replaceAll_induction (P := fun s s' => d :: (old ++ [d]) <:+: s' ↔ d :: (old ++ d :: (old ++ [d])) <:+: s)
    (List.cons_ne_nil _ _) (by simp) (fun r ih => ?_) (fun e r hp ih => ?_) s
  · have mark : ∀ w v : Text, (d :: (w ++ [d])) ++ v = d :: (w ++ d :: v) := by simp
    have here : ¬ old ++ [d] <+: new ++ d :: replaceAll (d :: (old ++ [d])) (d :: (new ++ [d])) r := fun h =>
      hne ((prefix_reach_iff ho hn).mp h).1
    -- What stands behind the last mark of an occurrence can be an occurrence with that mark.
    rw [mark, mark, infix_cons_append_iff hn, or_iff_right here, List.infix_cons_iff, List.cons_prefix_cons,
      and_iff_right rfl, prefix_replaceAll_iff ho, ih, infix_cons_append_iff ho, List.prefix_append_right_inj,
      List.cons_prefix_cons, and_iff_right rfl, List.infix_cons_iff, List.cons_prefix_cons, and_iff_right rfl, ← or_assoc,
      or_iff_left_of_imp longer.trans]
  · have start : ¬ d :: (old ++ [d]) <+: e :: replaceAll (d :: (old ++ [d])) (d :: (new ++ [d])) r := by
      rw [List.cons_prefix_cons, prefix_replaceAll_iff ho, ← List.cons_prefix_cons]
      exact hp
    have start' : ¬ d :: (old ++ d :: (old ++ [d])) <+: e :: r := fun h =>
      hp ((List.cons_prefix_cons.mpr ⟨rfl, longer⟩).trans h)
    rw [List.infix_cons_iff, or_iff_right start, ih, List.infix_cons_iff, or_iff_right start']

/-! ## Counting -/

theorem countLiteral_eq_zero_iff (h : pattern ≠ []) (s : Text) : countLiteral pattern s = 0 ↔ ¬ pattern <:+: s := by
  have nonempty : ¬ pattern.isEmpty = true := by simpa using h
  rw [countLiteral, pieces, if_neg nonempty, List.count_eq_zero]
  induction s with
  | nil => simp [piecesAfter, h]
  | cons c s ih =>
    rw [piecesAfter, List.infix_cons_iff]
    by_cases hp : pattern <+: c :: s
    · simp [List.isPrefixOf_iff_prefix.mpr hp, hp]
    · have start : ¬ pattern.isPrefixOf (c :: s) = true := fun h => hp (List.isPrefixOf_iff_prefix.mp h)
      rw [if_neg start, List.mem_cons, or_iff_right (by simp), or_iff_right hp]
      exact ih

end SpirvLink.Text
