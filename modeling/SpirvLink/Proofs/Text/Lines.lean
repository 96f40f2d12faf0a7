/-
  SpirvLink.Proofs.Text.Lines — the lines of a text, and blanks at their ends.

  A text put together of lines, each followed by a line feed, is cut into these lines again
  (`splitLines_joined`), provided that none holds a line feed or ends in a carriage return:
  the second would be read as a part of the line end. A line of a text holds no line feed
  (`newline_not_mem_of_mem_splitLines`) and a trimmed text does not end in a blank, so
  trimmed lines can always be printed. Trimming twice is trimming once (`trim_trim`).
-/

import Mathlib.Data.List.Basic
import SpirvLink.Proofs.Text.Cutting

namespace SpirvLink.Text

variable {s l : Text} {c : Char}

/-! ## Trimmed texts -/

theorem trimEnd_starts (s : Text) : trimEnd s <+: s := by
  induction s with
  | nil => exact List.prefix_rfl
  | cons c s ih =>
    rw [trimEnd]
    split
    · exact List.nil_prefix
    · exact (List.prefix_cons_inj c).mpr ih

theorem trim_subset (s : Text) : trim s ⊆ s := by
  intro c hc
  exact (List.dropWhile_suffix _).subset ((trimEnd_starts _).subset hc)

theorem not_blank_getLast?_trimEnd (s : Text) : ∀ c ∈ (trimEnd s).getLast?, isBlank c = false := by
  induction s with
  | nil => simp [trimEnd]
  | cons d s ih =>
    rw [trimEnd]
    split
    · simp
    · next h =>
      intro c hc
      cases hs : trimEnd s with
      | nil =>
        rw [hs] at h hc
        have hd : isBlank d = false := by simpa using h
        cases hc
        exact hd
      | cons e t =>
        rw [hs, List.getLast?_cons_cons] at hc
        exact ih c (hs ▸ hc)

theorem not_blank_head?_trim (s : Text) : ∀ c ∈ (trim s).head?, isBlank c = false := by
  intro c hc
  obtain ⟨t, ht⟩ := trimEnd_starts (trimStart s)
  have first : (trimStart s).head? = some c := by
    rw [← ht, List.head?_append, show (trimEnd (trimStart s)).head? = some c from hc]
    rfl
  have h := List.head?_dropWhile_not isBlank s
  rw [show (s.dropWhile isBlank).head? = some c from first] at h
  simpa using h

theorem trim_trim (s : Text) : trim (trim s) = trim s :=
  trim_of_ends (not_blank_head?_trim s) (not_blank_getLast?_trimEnd _)

/-- A text is trimmed when no blank is at its ends. -/
theorem trim_eq_self_iff : trim s = s ↔ (∀ c ∈ s.head?, isBlank c = false) ∧ ∀ c ∈ s.getLast?, isBlank c = false := by
  refine ⟨fun h => ⟨?_, ?_⟩, fun h => trim_of_ends h.1 h.2⟩
  · rw [← h]
    exact not_blank_head?_trim s
  · rw [← h]
    exact not_blank_getLast?_trimEnd _

theorem trim_blank (hc : isBlank c = true) (s : Text) : trim (c :: s) = trim s := by
  rw [trim, trimStart, List.dropWhile_cons_of_pos hc]
  rfl

/-- A text put together of parts stays trimmed if some parts become words. -/
theorem trim_flatMap {α : Type} {f g : α → Text} {xs : List α}
    (h : ∀ x ∈ xs, f x ≠ [] ∧ (g x = f x ∨ IsWord (g x))) (hf : trim (xs.flatMap f) = xs.flatMap f) :
    trim (xs.flatMap g) = xs.flatMap g := by
  have nonempty : ∀ x ∈ xs, g x ≠ [] := fun x hx => (h x hx).2.elim (fun e => e ▸ (h x hx).1) And.left
  obtain ⟨first, last⟩ := trim_eq_self_iff.mp hf
  refine trim_of_ends ?_ ?_
  · cases xs with
    | nil => exact fun c hc => (by cases hc)
    | cons x xs =>
      have hx := List.mem_cons_self (a := x) (l := xs)
      rw [List.flatMap_cons, List.head?_append_of_ne_nil _ (nonempty x hx)]
      rw [List.flatMap_cons, List.head?_append_of_ne_nil _ (h x hx).1] at first
      exact (h x hx).2.elim (fun e => e ▸ first) fun w c hc => w.2 c (List.mem_of_mem_head? hc)
  · rcases List.eq_nil_or_concat xs with rfl | ⟨init, x, rfl⟩
    · exact fun c hc => (by cases hc)
    · have hx : x ∈ init.concat x := by simp
      rw [List.concat_eq_append, List.flatMap_append, List.flatMap_singleton,
        List.getLast?_append_of_ne_nil _ (nonempty x hx)]
      rw [List.concat_eq_append, List.flatMap_append, List.flatMap_singleton,
        List.getLast?_append_of_ne_nil _ (h x hx).1] at last
      exact (h x hx).2.elim (fun e => e ▸ last) fun w c hc => w.2 c (List.mem_of_mem_getLast? hc)

/-- A renaming to words leaves no blank at the ends. -/
theorem trim_renameIds {f : Text → Text} (hf : ∀ id ∈ identifiers s, IsWord (f id)) (hs : trim s = s) :
    trim (renameIds f s) = renameIds f s := by
  refine trim_flatMap (f := Segment.text) (fun g hg => ?_) (by rwa [flatMap_segments])
  cases g with
  | ident id =>
    have hid := mem_identifiers.mpr hg
    exact ⟨(isIdent_of_mem hid).ne_nil, Or.inr (hf id hid)⟩
  | other c => exact ⟨List.cons_ne_nil _ _, Or.inl rfl⟩

/-- Trimming takes away blanks before and after. -/
theorem exists_blanks_trim (s : Text) : ∃ before after, s = before ++ trim s ++ after ∧
    (∀ c ∈ before, isBlank c = true) ∧ ∀ c ∈ after, isBlank c = true := by
  have ends : ∀ t : Text, ∃ after, t = trimEnd t ++ after ∧ ∀ c ∈ after, isBlank c = true := by
    intro t
    induction t with
    | nil => exact ⟨[], rfl, fun c hc => (by cases hc)⟩
    | cons c t ih =>
      obtain ⟨after, ht, blank⟩ := ih
      rw [trimEnd]
      split
      · next h =>
        obtain ⟨hc, hnil⟩ := Bool.and_eq_true_iff.mp h
        refine ⟨c :: t, rfl, List.forall_mem_cons.mpr ⟨hc, ?_⟩⟩
        rwa [ht, List.isEmpty_iff.mp hnil]
      · exact ⟨after, congrArg (c :: ·) ht, blank⟩
  obtain ⟨after, hafter, blank⟩ := ends (trimStart s)
  refine ⟨s.takeWhile isBlank, after, ?_, fun c hc => List.all_eq_true.mp List.all_takeWhile c hc, blank⟩
  rw [List.append_assoc, trim, ← hafter]
  exact List.takeWhile_append_dropWhile.symm

theorem trim_append_blanks {before after t : Text} (hb : ∀ c ∈ before, isBlank c = true)
    (ha : ∀ c ∈ after, isBlank c = true) (ht : trim t = t) : trim (before ++ t ++ after) = t := by
  rw [List.append_assoc, trim, trimStart_blanks hb]
  cases t with
  | nil => rw [List.nil_append, ← List.append_nil after, trimStart_blanks ha]; rfl
  | cons c t =>
    obtain ⟨first, last⟩ := trim_eq_self_iff.mp ht
    rw [List.cons_append, trimStart_of_head (first c rfl), ← List.cons_append, trimEnd_append_blanks ha,
      trimEnd_of_getLast last]

theorem renameIds_append_blanks (f : Text → Text) {before after : Text} (hb : ∀ c ∈ before, isBlank c = true)
    (ha : ∀ c ∈ after, isBlank c = true) (s : Text) :
    renameIds f (before ++ s ++ after) = before ++ renameIds f s ++ after := by
  have first : ∀ blanks : Text, (∀ c ∈ blanks, isBlank c = true) →
      ∀ t, renameIds f (blanks ++ t) = blanks ++ renameIds f t := by
    intro blanks hblanks t
    induction blanks with
    | nil => rfl
    | cons c blanks ih =>
      have inner := ih fun d hd => hblanks d (List.mem_cons_of_mem _ hd)
      have outer := renameIds_blank f (hblanks c (List.mem_cons_self ..)) [] (blanks ++ t)
      rw [List.cons_append, List.cons_append, ← inner]
      exact outer
  rw [List.append_assoc, first before hb, List.append_assoc]
  cases after with
  | nil => simp
  | cons c after =>
    have rest := first after (fun d hd => ha d (List.mem_cons_of_mem _ hd)) []
    rw [List.append_nil] at rest
    rw [renameIds_blank f (ha c (List.mem_cons_self ..)), rest, show renameIds f [] = [] from rfl, List.append_nil]

/-- Blanks belong to no identifier, so renaming and trimming change places. -/
theorem trim_renameIds_eq {f : Text → Text} (hf : ∀ id ∈ identifiers s, IsWord (f id)) :
    trim (renameIds f s) = renameIds f (trim s) := by
  obtain ⟨before, after, hs, hb, ha⟩ := exists_blanks_trim s
  have inner : trim (renameIds f (trim s)) = renameIds f (trim s) :=
    trim_renameIds (fun id hid => hf id (identifiers_trim s ▸ hid)) (trim_trim s)
  conv_lhs => rw [hs, renameIds_append_blanks f hb ha, trim_append_blanks hb ha inner]

/-! ## Lines that can be printed -/

/-- The text stands on one line of its own: it holds no line feed, and no carriage return
    that would be read as a part of the line feed behind it. -/
structure Printable (l : Text) : Prop where
  noFeed : '\n' ∉ l
  noReturn : l.getLast? ≠ some '\r'

instance (l : Text) : Decidable (Printable l) :=
  decidable_of_iff ('\n' ∉ l ∧ l.getLast? ≠ some '\r') ⟨fun ⟨hf, hr⟩ => ⟨hf, hr⟩, fun h => ⟨h.noFeed, h.noReturn⟩⟩

theorem printable_trim (h : '\n' ∉ l) : Printable (trim l) := by
  refine ⟨fun hm => h (trim_subset l hm), fun hr => ?_⟩
  have hb : isBlank '\r' = false := not_blank_getLast?_trimEnd _ _ hr
  exact absurd hb (by decide)

theorem Printable.cons (h : Printable l) (hne : l ≠ []) (hc : c ≠ '\n') : Printable (c :: l) := by
  obtain ⟨d, t, rfl⟩ := List.exists_cons_of_ne_nil hne
  exact ⟨fun hm => (List.mem_cons.mp hm).elim (fun e => hc e.symm) h.noFeed, h.noReturn⟩

/-! ## Cutting at the line feeds -/

theorem splitLines_feed (s : Text) : splitLines ('\n' :: s) = [] :: splitLines s := by
  rw [splitLines]

/-- A character that ends no line is the first of the line that follows it. -/
theorem splitLines_cons (hc : c ≠ '\n') (h : c = '\r' → s.head? ≠ some '\n') :
    splitLines (c :: s) =
      match splitLines s with
      | [] => [[c]]
      | l :: ls => (c :: l) :: ls := by
  have ends : ∀ t, c = '\r' → s = '\n' :: t → False := by
    intro t hr ht
    exact h hr (by rw [ht]; rfl)
  exact splitLines.eq_4 c s hc ends

theorem splitLines_printable (h : Printable l) (s : Text) :
    splitLines (l ++ '\n' :: s) = l :: splitLines s := by
  induction l with
  | nil => exact splitLines_feed s
  | cons c l ih =>
    have hc : c ≠ '\n' := fun e => h.noFeed (e ▸ List.mem_cons_self ..)
    cases l with
    | nil =>
      have hr : c ≠ '\r' := fun e => h.noReturn (e ▸ rfl)
      rw [List.singleton_append, splitLines_cons hc fun e => absurd e hr, splitLines_feed]
    | cons d l =>
      have rest : Printable (d :: l) := ⟨fun hm => h.noFeed (List.mem_cons_of_mem _ hm), h.noReturn⟩
      have hd : d ≠ '\n' := fun e => rest.noFeed (e ▸ List.mem_cons_self ..)
      rw [List.cons_append, splitLines_cons hc fun _ e => hd (by simpa using e), ih rest]

/-- Lines that are printed one by one are the lines of the text. -/
theorem splitLines_joined : ∀ {ls : List Text}, (∀ l ∈ ls, Printable l) →
    splitLines (ls.flatMap fun l => l ++ ['\n']) = ls
  | [], _ => rfl
  | l :: ls, h => by
    rw [List.flatMap_cons, List.append_assoc, List.singleton_append,
      splitLines_printable (h l (List.mem_cons_self ..)),
      splitLines_joined fun l hl => h l (List.mem_cons_of_mem _ hl)]

theorem newline_not_mem_of_mem_splitLines : ∀ {s : Text}, ∀ l ∈ splitLines s, '\n' ∉ l := by
  intro s
  have head : ∀ {c : Char} {s : Text}, (∀ t, c = '\r' → s = '\n' :: t → False) → c = '\r' → s.head? ≠ some '\n' := by
    intro c s hr hc hs
    obtain ⟨t, rfl⟩ := List.head?_eq_some_iff.mp hs
    exact hr t hc rfl
  induction s using splitLines.induct with
  | case1 => simp [splitLines]
  | case2 s ih =>
    rw [splitLines]
    simpa using ih
  | case3 s ih =>
    rw [splitLines]
    simpa using ih
  | case4 c s hc hr hs ih =>
    rw [splitLines_cons hc (head hr), hs]
    simpa using fun e : '\n' = c => hc e.symm
  | case5 c s hc hr l ls hs ih =>
    rw [splitLines_cons hc (head hr), hs]
    rw [hs] at ih
    simp only [List.mem_cons, forall_eq_or_imp, not_or] at ih ⊢
    exact ⟨⟨fun e => hc e.symm, ih.1⟩, ih.2⟩

/-- The text with these lines. -/
def ofLines (lines : List String) : Text :=
  lines.flatMap fun s => s.toList ++ ['\n']

end SpirvLink.Text
