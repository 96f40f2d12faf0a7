/-
  SpirvLink.Proofs.Text.Replacing — what a literal replacement does to identifiers.

  A pattern and a new text that can stand inside an identifier (`Inner`) are exchanged in
  each identifier alone (`identifiers_replaceAll`); with a space before them they stand
  outside of all identifiers (`identifiers_replaceAll_space`). A text changes exactly if it
  holds the pattern (`replaceAll_eq_self_iff`). Where pattern and new text stand between
  two equal characters, two texts become one only if one of them holds the new text before
  (`replaceAll_inj`).
-/

import SpirvLink.Proofs.Text.Literal

namespace SpirvLink.Text

variable {pattern new old s s' t u a b : Text} {c d : Char}

/-! ## Identifiers -/

/-- Where nothing ends an identifier, one that is begun takes the whole rest. -/
theorem identifiers_sigil (h : ∀ c ∈ s, endsIdent c = false) : identifiers (sigil :: s) = [sigil :: s] :=
  identifiers_of_isIdent (isIdent_sigil.mpr h)

theorem Inner.not_mem (h : Inner s) (hd : endsIdent d = true ∨ d = sigil ∨ d = '=') : d ∉ s := by
  intro hm
  obtain ⟨hends, hsigil, hequals⟩ := h d hm
  rcases hd with hd | hd | hd
  · rw [hends] at hd
    cases hd
  · exact hsigil hd
  · exact hequals hd

/-- In a text that nothing cuts, a pattern is exchanged before and in the one identifier. -/
theorem identifiers_replaceAll_run (h : pattern ≠ []) (hp : Inner pattern) (hn : Inner new) {w : Text}
    (hw : ∀ c ∈ w, endsIdent c = false) : identifiers (replaceAll pattern new w) = (identifiers w).map (replaceAll pattern new) := by
  have quiet : ∀ {v : Text}, sigil ∉ v → sigil ∉ replaceAll pattern new v := fun hv hm =>
    ((replaced_replaceAll h _).mem hm).elim hv (hn.not_mem (.inr (.inl rfl)))
  have cut : ∀ v t : Text, replaceAll pattern new (v ++ sigil :: t) = replaceAll pattern new v ++ sigil :: replaceAll pattern new t :=
    replaceAll_cut h (hp.not_mem (.inr (.inl rfl)))
  rcases exists_first (· == sigil) w with none | ⟨v, c, t, hv, hc, rfl⟩
  · have none : sigil ∉ w := fun hm => by simpa using none sigil hm
    rw [identifiers_of_no_sigil none, identifiers_of_no_sigil (quiet none)]
    rfl
  · obtain rfl := eq_of_beq hc
    have none : sigil ∉ v := fun hm => by simpa using hv sigil hm
    have rest : ∀ c ∈ t, endsIdent c = false := fun c hc => hw c (List.mem_append_right _ (List.mem_cons_of_mem _ hc))
    have rest' : ∀ c ∈ replaceAll pattern new t, endsIdent c = false := fun c hc =>
      ((replaced_replaceAll h t).mem hc).elim (rest c) fun hm => (hn c hm).1
    have whole : replaceAll pattern new (sigil :: t) = sigil :: replaceAll pattern new t := by
      rw [← List.nil_append (sigil :: t), cut, replaceAll_nil h]
      rfl
    rw [cut, identifiers_append_of_no_sigil none, identifiers_append_of_no_sigil (quiet none), identifiers_sigil rest,
      identifiers_sigil rest', List.map_singleton, whole]

theorem identifiers_replaceAll (h : pattern ≠ []) (hp : Inner pattern) (hn : Inner new) (s : Text) :
    identifiers (replaceAll pattern new s) = (identifiers s).map (replaceAll pattern new) := by
  induction s using first_induction endsIdent with
  | run w hw => exact identifiers_replaceAll_run h hp hn hw
  | first w c t hw hc ih =>
    rw [replaceAll_cut h (hp.not_mem (.inl hc)), identifiers_ender hc, identifiers_ender hc, ih, List.map_append,
      identifiers_replaceAll_run h hp hn hw]

/-- Words after a space may change how they start; no identifier starts there. -/
theorem identifiers_replaceAll_space (ho : IsWord old) (hn : IsWord new) (hos : sigil ∉ old) (hns : sigil ∉ new) (s : Text) :
    identifiers (replaceAll (' ' :: old) (' ' :: new) s) = identifiers s := by
  rw [identifiers_eq_flatMap_words, identifiers_eq_flatMap_words s]
  have moved := words_replaceAll_space ho hn s
  generalize words s = ws at moved
  generalize words (replaceAll (' ' :: old) (' ' :: new) s) = ws' at moved
  induction moved with
  | nil => rfl
  | cons hw _ ih =>
    rw [List.flatMap_cons, List.flatMap_cons, ih]
    rcases hw with rfl | ⟨r, rfl, rfl⟩
    · rfl
    · rw [identifiers_append_of_no_sigil hos, identifiers_append_of_no_sigil hns]

/-! ## Texts that change, and texts that become one -/

theorem Replaced.length_le (h : Replaced pattern new s s') (hle : new.length ≤ pattern.length) : s'.length ≤ s.length := by
  induction h with
  | nil => exact Nat.le_refl _
  | found _ ih => simp only [List.length_append]; omega
  | kept _ ih => exact Nat.succ_le_succ ih

theorem Replaced.le_length (h : Replaced pattern new s s') (hle : pattern.length ≤ new.length) : s.length ≤ s'.length := by
  induction h with
  | nil => exact Nat.le_refl _
  | found _ ih => simp only [List.length_append]; omega
  | kept _ ih => exact Nat.succ_le_succ ih

theorem replaceAll_of_not_infix (h : pattern ≠ []) (hs : ¬ pattern <:+: s) : replaceAll pattern new s = s := by
  induction s with
  | nil => exact replaceAll_nil h
  | cons c s ih =>
    rw [List.infix_cons_iff, not_or] at hs
    rw [replaceAll_cons h, if_neg hs.1, ih hs.2]

/-- A text changes exactly if it holds the pattern. -/
theorem replaceAll_eq_self_iff (h : pattern ≠ []) (hne : pattern ≠ new) (s : Text) :
    replaceAll pattern new s = s ↔ ¬ pattern <:+: s := by
  refine ⟨fun he => ?_, replaceAll_of_not_infix h⟩
  induction s with
  | nil => rwa [List.infix_nil]
  | cons c s ih =>
    rw [List.infix_cons_iff, not_or]
    by_cases hp : pattern <+: c :: s
    · obtain ⟨r, hr⟩ := hp
      rw [← hr, replaceAll_append h] at he
      have lengths := congrArg List.length he
      simp only [List.length_append] at lengths
      rcases Nat.lt_trichotomy pattern.length new.length with hlt | heq | hlt
      · have := (replaced_replaceAll h r).le_length (Nat.le_of_lt hlt)
        omega
      · exact absurd (List.append_inj_left he heq.symm).symm hne
      · have := (replaced_replaceAll h r).length_le (Nat.le_of_lt hlt)
        omega
    · rw [replaceAll_cons h, if_neg hp, List.cons.injEq] at he
      exact ⟨hp, ih he.2⟩

/-- What starts a replaced text and ends where pattern and new text start, started the text. -/
theorem Replaced.starts (h : Replaced (d :: pattern) (d :: new) s s') (hu : d ∉ u) (hs : u ++ [d] <+: s') :
    u ++ [d] <+: s := by
  induction h generalizing u with
  | nil => exact hs
  | found _ _ =>
    cases u with
    | nil => exact List.prefix_append [d] _
    | cons e u => exact absurd (List.mem_cons.mpr (Or.inl (List.cons_prefix_cons.mp hs).1.symm)) hu
  | kept _ ih =>
    cases u with
    | nil =>
      obtain ⟨he, -⟩ := List.cons_prefix_cons.mp hs
      exact List.cons_prefix_cons.mpr ⟨he, List.nil_prefix⟩
    | cons e u =>
      obtain ⟨he, hs⟩ := List.cons_prefix_cons.mp hs
      exact List.cons_prefix_cons.mpr ⟨he, ih (fun hm => hu (List.mem_cons_of_mem _ hm)) hs⟩

/-- The new text after a character that was kept stood there before. -/
theorem stands_of_replaceAll (hu : d ∉ u)
    (he : (c :: replaceAll (d :: pattern) (d :: (u ++ [d])) b) = d :: (u ++ [d]) ++ a) : d :: (u ++ [d]) <+: c :: b := by
  obtain ⟨rfl, he⟩ := List.cons.inj he
  exact List.cons_prefix_cons.mpr ⟨rfl, (replaced_replaceAll (List.cons_ne_nil _ _) b).starts hu ⟨a, he.symm⟩⟩

/-- Where pattern and new text stand between two equal characters, and neither text holds
    the new text, two texts do not become one. -/
theorem replaceAll_inj (hu : d ∉ u) (ha : ¬ d :: (u ++ [d]) <:+: a) (hb : ¬ d :: (u ++ [d]) <:+: b)
    (he : replaceAll (d :: pattern) (d :: (u ++ [d])) a = replaceAll (d :: pattern) (d :: (u ++ [d])) b) : a = b := by
  have hp : d :: pattern ≠ [] := List.cons_ne_nil _ _
  induction hn : a.length using Nat.strongRecOn generalizing a b with
  | _ n ih =>
    cases a with
    | nil =>
      rw [replaceAll_nil hp] at he
      exact ((replaced_replaceAll hp b).eq_nil (List.cons_ne_nil _ _) he.symm).symm
    | cons c a =>
      cases b with
      | nil =>
        rw [replaceAll_nil hp] at he
        exact (replaced_replaceAll hp (c :: a)).eq_nil (List.cons_ne_nil _ _) he
      | cons e b =>
        by_cases hpa : d :: pattern <+: c :: a <;> by_cases hpb : d :: pattern <+: e :: b
        · obtain ⟨r, hr⟩ := hpa
          obtain ⟨q, hq⟩ := hpb
          rw [← hr, ← hq, replaceAll_append hp, replaceAll_append hp, List.append_cancel_left_eq] at he
          have shorter : r.length < n := by
            rw [← hn, ← hr, List.length_append, List.length_cons]
            omega
          have inr : r <:+: c :: a := (hr ▸ List.suffix_append ..).isInfix
          have inq : q <:+: e :: b := (hq ▸ List.suffix_append ..).isInfix
          rw [← hr, ← hq, ih r.length shorter (fun hi => ha (hi.trans inr)) (fun hi => hb (hi.trans inq)) he rfl]
        · obtain ⟨r, hr⟩ := hpa
          rw [← hr, replaceAll_append hp, replaceAll_cons hp, if_neg hpb] at he
          exact absurd (stands_of_replaceAll hu he.symm).isInfix hb
        · obtain ⟨q, hq⟩ := hpb
          rw [← hq, replaceAll_append hp, replaceAll_cons hp, if_neg hpa] at he
          exact absurd (stands_of_replaceAll hu he).isInfix ha
        · rw [replaceAll_cons hp, replaceAll_cons hp, if_neg hpa, if_neg hpb, List.cons.injEq] at he
          have tails : a = b := ih a.length (by rw [← hn]; exact Nat.lt_succ_self _)
            (fun hi => ha (hi.trans (List.suffix_cons c a).isInfix)) (fun hi => hb (hi.trans (List.suffix_cons e b).isInfix)) he.2 rfl
          rw [he.1, tails]

end SpirvLink.Text
