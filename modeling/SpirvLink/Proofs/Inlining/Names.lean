/-
  SpirvLink.Proofs.Inlining.Names — the names that the copies of bodies bring into main.

  A name in a copy tells the function, the copy and the identifier that it was made from
  (`nameIn_injective`), as long as no identifier of the module ends as a copy's name does.
  So the names of copies still to be made are told apart from those of copies made
  (`upcoming_nameIn`), and main stays free of the former.
-/

import SpirvLink.Proofs.Module

namespace SpirvLink

namespace Inlining

/-! ## Suffixes -/

/-- The name ends as names in later copies do, in `_inl` and digits. -/
def isCopyName (id : Text) : Bool :=
  !(id.reverse.takeWhile Char.isDigit).isEmpty &&
    "lni_".toList.isPrefixOf (id.reverse.dropWhile Char.isDigit)

theorem isDigit_toDigits (n : Nat) : ∀ c ∈ (Nat.toDigits 10 n).reverse, c.isDigit = true :=
  fun _ hc => Nat.isDigit_of_mem_toDigits (by decide) (by decide) (List.mem_reverse.mp hc)

theorem reverse_append_copySuffix (id : Text) (copy : Nat) :
    (id ++ copySuffix copy).reverse = (Nat.toDigits 10 copy).reverse ++ ("lni_".toList ++ id.reverse) := by
  rw [copySuffix, List.reverse_append, List.reverse_append, List.append_assoc]
  rfl

theorem takeWhile_copy (id : Text) (copy : Nat) :
    (id ++ copySuffix copy).reverse.takeWhile Char.isDigit = (Nat.toDigits 10 copy).reverse := by
  rw [reverse_append_copySuffix, List.takeWhile_append_of_pos (isDigit_toDigits copy)]
  exact List.append_nil _

theorem dropWhile_copy (id : Text) (copy : Nat) :
    (id ++ copySuffix copy).reverse.dropWhile Char.isDigit = "lni_".toList ++ id.reverse := by
  rw [reverse_append_copySuffix, List.dropWhile_append_of_pos (isDigit_toDigits copy)]
  rfl

theorem isCopyName_append_copySuffix (id : Text) (copy : Nat) : isCopyName (id ++ copySuffix copy) = true := by
  rw [isCopyName, takeWhile_copy, dropWhile_copy]
  have digits : (Nat.toDigits 10 copy).reverse.isEmpty = false := by
    simp [Nat.toDigits_ne_nil]
  rw [digits]
  exact List.isPrefixOf_iff_prefix.mpr (List.prefix_append _ _)

theorem append_copySuffix_injective {id id' : Text} {copy copy' : Nat}
    (h : id ++ copySuffix copy = id' ++ copySuffix copy') : id = id' ∧ copy = copy' := by
  have digits : Nat.toDigits 10 copy = Nat.toDigits 10 copy' := by
    have := congrArg (fun s : Text => (s.reverse.takeWhile Char.isDigit).reverse) h
    simpa only [takeWhile_copy, List.reverse_reverse] using this
  have number : copy = copy' := by
    rw [← Nat.ofDigitChars_ten_toDigits (n := copy), digits, Nat.ofDigitChars_ten_toDigits]
  subst number
  exact ⟨List.append_cancel_right h, rfl⟩

theorem endsIdent_of_isDigit {c : Char} (h : c.isDigit = true) :
    Text.endsIdent c = false ∧ c ≠ '=' ∧ c ≠ Text.sigil := by
  have bounds : 48 ≤ c.toNat ∧ c.toNat ≤ 57 := by
    simp only [Char.isDigit, Bool.and_eq_true, decide_eq_true_eq, UInt32.le_iff_toNat_le] at h
    exact h
  have ne : ∀ d : Char, ¬ (48 ≤ d.toNat ∧ d.toNat ≤ 57) → c ≠ d := by
    rintro d hd rfl
    exact hd bounds
  refine ⟨?_, ne _ (by decide), ne _ (by decide)⟩
  have quote : (c == '"') = false := beq_false_of_ne (ne _ (by decide))
  simp only [Text.endsIdent, quote, Bool.or_false, isBlank, blankRanges, List.any_cons, List.any_nil,
    Bool.or_eq_false_iff, Bool.and_eq_false_iff, decide_eq_false_iff_not]
  omega

theorem mem_copySuffix {copy : Nat} {c : Char} (h : c ∈ copySuffix copy) :
    Text.endsIdent c = false ∧ c ≠ '=' ∧ c ≠ Text.sigil := by
  rcases List.mem_append.mp h with h | h
  · have stem : ∀ c ∈ "_inl".toList, Text.endsIdent c = false ∧ c ≠ '=' ∧ c ≠ Text.sigil :=
      Text.forall_of_all (by decide)
    exact stem c h
  · exact endsIdent_of_isDigit (Nat.isDigit_of_mem_toDigits (by decide) (by decide) h)

theorem isIdent_append_copySuffix {id : Text} (hid : Text.IsIdent id) (copy : Nat) : Text.IsIdent (id ++ copySuffix copy) := by
  refine ⟨by rw [List.head?_append, hid.1]; rfl, fun c hc => ?_⟩
  exact (List.mem_append.mp hc).elim (hid.2 c) fun hc => (mem_copySuffix hc).1

/-- An identifier gets the number behind it, or it stays. -/
theorem nameInCopy_induction {copy : Nat} {owned : List Text} {id : Text} {P : Text → Prop}
    (step : ∀ id, P id → P (id ++ copySuffix copy)) (h : P id) : P (nameInCopy copy owned id) := by
  unfold nameInCopy
  split
  · exact step id h
  · exact h

theorem isIdent_nameInCopy {copy : Nat} {owned : List Text} {id : Text} (hid : Text.IsIdent id) :
    Text.IsIdent (nameInCopy copy owned id) :=
  nameInCopy_induction (fun _ h => isIdent_append_copySuffix h copy) hid

theorem isPlainIdent_append_copySuffix {id : Text} (h : Text.IsPlainIdent id) (copy : Nat) :
    Text.IsPlainIdent (id ++ copySuffix copy) := by
  obtain ⟨hid, heq, hsigil⟩ := h
  obtain ⟨c, s, rfl⟩ := List.exists_cons_of_ne_nil hid.ne_nil
  refine ⟨isIdent_append_copySuffix hid copy, fun hd => ?_, fun hd => ?_⟩
  · rcases List.mem_append.mp hd with hd | hd
    · exact heq hd
    · exact (mem_copySuffix hd).2.1 rfl
  · rcases List.mem_append.mp hd with hd | hd
    · exact hsigil hd
    · exact (mem_copySuffix hd).2.2 rfl

end Inlining

/-! ## The names in one copy -/

namespace Function

variable {f : Function}

/-- The name that an identifier of the function is to have in a copy. -/
def nameIn (f : Function) (copy : Nat) (id : Text) : Text :=
  Inlining.nameInCopy copy f.owned id

theorem nameIn_of_not_mem {id : Text} (h : id ∉ f.owned) (copy : Nat) : f.nameIn copy id = id :=
  if_neg fun hc => h hc.2

theorem nameIn_first (id : Text) : f.nameIn 1 id = id := by
  unfold nameIn Inlining.nameInCopy
  exact if_neg fun hc => Nat.lt_irrefl 1 hc.1

theorem nameIn_later {id : Text} (h : id ∈ f.owned) {copy : Nat} (hc : 1 < copy) :
    f.nameIn copy id = id ++ Inlining.copySuffix copy :=
  if_pos ⟨hc, h⟩

theorem nameIn_eq_or (copy : Nat) (id : Text) :
    f.nameIn copy id = id ∨ f.nameIn copy id = id ++ Inlining.copySuffix copy := by
  unfold nameIn Inlining.nameInCopy
  split
  · exact Or.inr rfl
  · exact Or.inl rfl

theorem isPlainIdent_nameIn {id : Text} (h : Text.IsPlainIdent id) (copy : Nat) :
    Text.IsPlainIdent (f.nameIn copy id) := by
  rcases nameIn_eq_or copy id with he | he
  · rwa [he]
  · rw [he]
    exact Inlining.isPlainIdent_append_copySuffix h copy

end Function

namespace Module

/-! ## Names of copies still to be made -/

/-- What the functions own is told apart and looks like no name in a later copy. -/
structure Separate (m : Module) : Prop where
  nodup : ∀ f ∈ m.plainFunctions, f.owned.Nodup
  apart : ∀ f ∈ m.plainFunctions, ∀ f' ∈ m.plainFunctions, ∀ d ∈ f.owned, d ∈ f'.owned → f = f'
  unsuffixed : ∀ f ∈ m.plainFunctions, ∀ d ∈ f.owned, Inlining.isCopyName d = false

/-- The name is one that a later copy brings in, given the copies made so far. -/
def Upcoming (m : Module) (copied : List Text) (id : Text) : Prop :=
  ∃ f ∈ m.plainFunctions, ∃ name, f.name = .ok name ∧
    ∃ d ∈ f.owned, ∃ copy, copied.count name < copy ∧ id = f.nameIn copy d

section Upcoming

variable {m : Module} {f f' : Function} {d d' : Text} {copied copied' : List Text} {name id : Text}

/-- A name in a copy tells what it was made from. -/
theorem Separate.nameIn_injective (s : m.Separate) (hf : f ∈ m.plainFunctions) (hf' : f' ∈ m.plainFunctions)
    (hd : d ∈ f.owned) (hd' : d' ∈ f'.owned) {copy copy' : Nat} (hc : 0 < copy) (hc' : 0 < copy')
    (h : f.nameIn copy d = f'.nameIn copy' d') : f = f' ∧ copy = copy' ∧ d = d' := by
  have plain := s.unsuffixed f hf d hd
  have plain' := s.unsuffixed f' hf' d' hd'
  by_cases h1 : 1 < copy <;> by_cases h2 : 1 < copy'
  · rw [Function.nameIn_later hd h1, Function.nameIn_later hd' h2] at h
    obtain ⟨rfl, rfl⟩ := Inlining.append_copySuffix_injective h
    exact ⟨s.apart f hf f' hf' d hd hd', rfl, rfl⟩
  · obtain rfl : copy' = 1 := by omega
    rw [Function.nameIn_later hd h1, Function.nameIn_first] at h
    rw [← h, Inlining.isCopyName_append_copySuffix] at plain'
    cases plain'
  · obtain rfl : copy = 1 := by omega
    rw [Function.nameIn_first, Function.nameIn_later hd' h2] at h
    rw [h, Inlining.isCopyName_append_copySuffix] at plain
    cases plain
  · obtain rfl : copy = 1 := by omega
    obtain rfl : copy' = 1 := by omega
    rw [Function.nameIn_first, Function.nameIn_first] at h
    subst h
    exact ⟨s.apart f hf f' hf' d hd hd', rfl, rfl⟩

theorem Separate.upcoming_nameIn (s : m.Separate) (hf : f ∈ m.plainFunctions) (hn : f.name = .ok name)
    (hd : d ∈ f.owned) {copy : Nat} (hc : 0 < copy) : m.Upcoming copied (f.nameIn copy d) ↔ copied.count name < copy := by
  constructor
  · rintro ⟨g, hg, other, hgn, e, he, copy', hlt, heq⟩
    obtain ⟨rfl, rfl, rfl⟩ := s.nameIn_injective hf hg hd he hc (by omega) heq
    cases hn.symm.trans hgn
    exact hlt
  · intro hlt
    exact ⟨f, hf, name, hn, d, hd, copy, hlt, rfl⟩

theorem Upcoming.anti (h : m.Upcoming copied' id) (hle : ∀ name, copied.count name ≤ copied'.count name) :
    m.Upcoming copied id := by
  obtain ⟨f, hf, name, hn, d, hd, copy, hlt, heq⟩ := h
  exact ⟨f, hf, name, hn, d, hd, copy, Nat.lt_of_le_of_lt (hle name) hlt, heq⟩

/-- An upcoming name is one that a function owns, or it looks like a name in a later copy. -/
theorem Upcoming.owned_or (h : m.Upcoming copied id) :
    (∃ f ∈ m.plainFunctions, id ∈ f.owned) ∨ Inlining.isCopyName id = true := by
  obtain ⟨f, hf, name, -, d, hd, copy, -, rfl⟩ := h
  rcases Function.nameIn_eq_or copy d with he | he
  · exact Or.inl ⟨f, hf, by rwa [he]⟩
  · exact Or.inr (he ▸ Inlining.isCopyName_append_copySuffix d copy)

end Upcoming

/-! ## Modules in which copies get names of their own -/

/-- Every line is well spaced, each identifier is defined by at most one line, no
    identifier looks like a name in a later copy, and a function's parameters come before
    its first label. -/
structure Tidy (m : Module) : Prop where
  spaced : ∀ l ∈ m.lines, l.WellSpaced
  once : m.DefinesOnce
  unsuffixed : ∀ l ∈ m.lines, ∀ id ∈ l.ids, Inlining.isCopyName id = false
  parametersFirst : ∀ f ∈ m.plainFunctions, f.ParametersFirst

instance (m : Module) : Decidable m.Tidy :=
  decidable_of_iff ((∀ l ∈ m.lines, l.WellSpaced) ∧ m.DefinesOnce ∧
      (∀ l ∈ m.lines, ∀ id ∈ l.ids, Inlining.isCopyName id = false) ∧
      ∀ f ∈ m.plainFunctions, f.ParametersFirst)
    ⟨fun h => ⟨h.1, h.2.1, h.2.2.1, h.2.2.2⟩, fun h => ⟨h.spaced, h.once, h.unsuffixed, h.parametersFirst⟩⟩

/-- Main calls a function that calls another one two times. -/
def nestedCalls : Module :=
  ⟨[⟨.definitions, [⟨"%u = OpTypeInt 32 0".toList⟩, ⟨"%one = OpConstant %u 1".toList⟩]⟩,
    ⟨.function, [⟨"%add = OpFunction %u".toList⟩, ⟨"%x = OpFunctionParameter %u".toList⟩, ⟨"%l1 = OpLabel".toList⟩,
      ⟨"%sum = OpIAdd %u %x %one".toList⟩, ⟨"OpReturnValue %sum".toList⟩, ⟨"OpFunctionEnd".toList⟩]⟩,
    ⟨.function, [⟨"%twice = OpFunction %u".toList⟩, ⟨"%y = OpFunctionParameter %u".toList⟩, ⟨"%l2 = OpLabel".toList⟩,
      ⟨"%a = OpFunctionCall %u %add %y".toList⟩, ⟨"%b = OpFunctionCall %u %add %a".toList⟩,
      ⟨"OpReturnValue %b".toList⟩, ⟨"OpFunctionEnd".toList⟩]⟩,
    ⟨.main, [⟨"%main = OpFunction %void".toList⟩, ⟨"%l = OpLabel".toList⟩, ⟨"%in = OpLoad %u %src".toList⟩,
      ⟨"%r = OpFunctionCall %u %twice %in".toList⟩, ⟨"OpStore %dst %r".toList⟩, ⟨"OpReturn".toList⟩,
      ⟨"OpFunctionEnd".toList⟩]⟩]⟩

theorem nestedCalls_tidy : nestedCalls.Tidy := by decide +kernel

variable {m : Module} {f f' : Function} {d d' : Text}

namespace Tidy

theorem spaced_plain (t : m.Tidy) (hf : f ∈ m.plainFunctions) : ∀ l ∈ f.lines, l.WellSpaced :=
  fun l hl => t.spaced l (mem_lines_of_plain hf hl)

theorem owned_defined (t : m.Tidy) (hf : f ∈ m.plainFunctions) (hd : d ∈ f.owned) :
    d ∈ f.lines.filterMap Line.defined? :=
  (Function.owned_sublist (t.parametersFirst f hf)).subset hd

theorem owned_mem_ids (t : m.Tidy) (hf : f ∈ m.plainFunctions) (hd : d ∈ f.owned) :
    ∃ l ∈ f.lines, d ∈ l.ids := by
  obtain ⟨l, hl, hld⟩ := List.mem_filterMap.mp (t.owned_defined hf hd)
  exact ⟨l, hl, (t.spaced_plain hf l hl).mem_ids_of_defined hld⟩

theorem owned_unsuffixed (t : m.Tidy) (hf : f ∈ m.plainFunctions) (hd : d ∈ f.owned) :
    Inlining.isCopyName d = false := by
  obtain ⟨l, hl, hid⟩ := t.owned_mem_ids hf hd
  exact t.unsuffixed l (mem_lines_of_plain hf hl) d hid

theorem owned_plain (t : m.Tidy) (hf : f ∈ m.plainFunctions) (hd : d ∈ f.owned) : Text.IsPlainIdent d := by
  obtain ⟨l, hl, hid⟩ := t.owned_mem_ids hf hd
  exact (t.spaced_plain hf l hl).plain d hid

theorem owned_nodup (t : m.Tidy) (hf : f ∈ m.plainFunctions) : f.owned.Nodup :=
  (t.once.block_nodup (mem_plainFunctions.mp hf)).sublist (Function.owned_sublist (t.parametersFirst f hf))

/-- What a function owns is defined in no other block. -/
theorem block_of_owned (t : m.Tidy) (hf : f ∈ m.plainFunctions) (hd : d ∈ f.owned) {b : Block}
    (hb : b ∈ m.blocks) (hdb : d ∈ b.lines.filterMap Line.defined?) : b = ⟨.function, f.lines⟩ :=
  t.once.block_eq hb (mem_plainFunctions.mp hf) hdb (t.owned_defined hf hd)

theorem owned_eq (t : m.Tidy) (hf : f ∈ m.plainFunctions) (hf' : f' ∈ m.plainFunctions)
    (hd : d ∈ f.owned) (hd' : d ∈ f'.owned) : f = f' := by
  have := t.block_of_owned hf hd (mem_plainFunctions.mp hf') (t.owned_defined hf' hd')
  cases f
  cases f'
  simp_all

theorem separate (t : m.Tidy) : m.Separate :=
  ⟨fun _ hf => t.owned_nodup hf, fun _ hf _ hf' _ hd hd' => t.owned_eq hf hf' hd hd', fun _ hf _ hd => t.owned_unsuffixed hf hd⟩

theorem nameIn_injective (t : m.Tidy) (hf : f ∈ m.plainFunctions) (hf' : f' ∈ m.plainFunctions)
    (hd : d ∈ f.owned) (hd' : d' ∈ f'.owned) {copy copy' : Nat} (hc : 0 < copy) (hc' : 0 < copy')
    (h : f.nameIn copy d = f'.nameIn copy' d') : f = f' ∧ copy = copy' ∧ d = d' :=
  t.separate.nameIn_injective hf hf' hd hd' hc hc' h

end Tidy

theorem upcoming_nameIn (t : m.Tidy) (hf : f ∈ m.plainFunctions) {name : Text} (hn : f.name = .ok name) (hd : d ∈ f.owned)
    {copied : List Text} {copy : Nat} (hc : 0 < copy) : m.Upcoming copied (f.nameIn copy d) ↔ copied.count name < copy :=
  t.separate.upcoming_nameIn hf hn hd hc

end Module

end SpirvLink
