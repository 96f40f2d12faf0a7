/-
  SpirvLink.Proofs.Lowering.Exact — what each edit of instructions does to a function.

  Replacing pointer access chains succeeds where every one of them has an index, and is then
  one edit of each line (`dropElements_of_indexed`); a chain without an index is named by the
  error (`dropElements_of_short`). Defining lanes is an edit of each line by definition.

  An edited line is put together anew of what was read on it, so it is read again with another
  opcode or other operands and with the same definition. It is no line that the same edit
  looks for, and the other edit looks for it if and only if it did before. Therefore an edit
  that is repeated does nothing, and the two edits can change places (`edits_exact`).
-/

import SpirvLink.Proofs.Lowering

namespace SpirvLink.Line

variable {l : Line} {ls before after : List Line}

/-! ## Access chains -/

/-- A pointer access chain has an index behind its type, base and element. -/
def Indexed (l : Line) : Prop :=
  l.isPtrChain = true → 4 ≤ l.operands.length

instance (l : Line) : Decidable l.Indexed :=
  inferInstanceAs (Decidable (_ → _))

/-- What a line with an index becomes, and any other line stays. -/
def withoutElement (l : Line) : Line :=
  if l.isPtrChain then ofParts l.defined? Opcode.accessChain (l.operands.eraseIdx 2) else l

theorem withoutElement_of_ptrChain (h : l.isPtrChain = true) :
    l.withoutElement = ofParts l.defined? Opcode.accessChain (l.operands.eraseIdx 2) :=
  if_pos h

theorem withoutElement_of_not (h : l.isPtrChain = false) : l.withoutElement = l :=
  if_neg (by simp [h])

theorem dropElement_of_four_le (h : 4 ≤ l.operands.length) :
    l.dropElement = .ok (ofParts l.defined? Opcode.accessChain (l.operands.eraseIdx 2)) := by
  unfold dropElement
  split
  · next hops => rw [hops]; rfl
  · next short =>
    match hops : l.operands, h with
    | type :: base :: element :: index :: rest, _ => exact absurd hops (short type base element index rest)

theorem dropElement_of_lt_four (h : l.operands.length < 4) :
    l.dropElement = .error (.malformedInstruction l.text .shortAccessChain) := by
  unfold dropElement
  split
  · next hops =>
    rw [hops] at h
    simp at h
    omega
  · rfl

/-- Where every pointer access chain has an index, all are replaced and counted. -/
theorem dropElements_of_indexed : ∀ {ls : List Line}, (∀ l ∈ ls, l.Indexed) →
    (dropElements ls).1 = ls.map withoutElement ∧ (dropElements ls).2.result = .ok (ls.countP isPtrChain)
  | [], _ => ⟨rfl, rfl⟩
  | l :: ls, h => by
    obtain ⟨hl, h⟩ := List.forall_mem_cons.mp h
    obtain ⟨lines, count⟩ := dropElements_of_indexed h
    rw [dropElements]
    cases hp : l.isPtrChain with
    | true =>
      rw [if_pos rfl, dropElement_of_four_le (hl hp), List.map_cons, withoutElement_of_ptrChain hp,
        List.countP_cons_of_pos hp, ← lines]
      exact ⟨rfl, Logged.bind_result_eq_ok.mpr ⟨(), rfl, Logged.bind_result_eq_ok.mpr ⟨_, count, rfl⟩⟩⟩
    | false =>
      rw [if_neg (by simp), List.map_cons, withoutElement_of_not hp, List.countP_cons_of_neg (by simp [hp]), ← lines]
      exact ⟨rfl, count⟩

/-- The first chain without an index is refused, whatever follows it. -/
theorem dropElements_of_short (hl : ¬ l.Indexed) : ∀ {before : List Line}, (∀ k ∈ before, k.Indexed) → ∀ after,
    (dropElements (before ++ l :: after)).2.result = .error (.malformedInstruction l.text .shortAccessChain)
  | [], _, after => by
    obtain ⟨hp, short⟩ := Classical.not_imp.mp hl
    rw [List.nil_append, dropElements, if_pos hp, dropElement_of_lt_four (by omega)]
    rfl
  | k :: before, h, after => by
    obtain ⟨hk, h⟩ := List.forall_mem_cons.mp h
    have ih := dropElements_of_short hl h after
    rw [List.cons_append, dropElements]
    cases hp : k.isPtrChain with
    | true =>
      rw [if_pos rfl, dropElement_of_four_le (hk hp)]
      show (_ >>= _ : Logged Nat).result = _
      rw [Logged.result_bind, Logged.result_tell]
      show (_ >>= _ : Logged Nat).result = _
      rw [Logged.result_bind, ih]
      rfl
    | false => rw [if_neg (by simp)]; exact ih

theorem dropElements_eq_ok_iff {n : Nat} :
    (dropElements ls).2.result = .ok n ↔ (∀ l ∈ ls, l.Indexed) ∧ n = ls.countP isPtrChain := by
  constructor
  · intro ok
    have indexed : ∀ l ∈ ls, l.Indexed := by
      intro l hl hp
      obtain ⟨k, -, ⟨other, -⟩ | ⟨-, hd⟩⟩ := exists_of_forall₂ (forall₂_dropElements ok) l hl
      · rw [hp] at other
        cases other
      · by_contra short
        rw [dropElement_of_lt_four (by omega)] at hd
        cases hd
    rw [(dropElements_of_indexed indexed).2] at ok
    exact ⟨indexed, (Except.ok.inj ok).symm⟩
  · rintro ⟨indexed, rfl⟩
    exact (dropElements_of_indexed indexed).2

/-- Without pointer access chains there is nothing to do and nothing to tell. -/
theorem dropElements_of_none : ∀ {ls : List Line}, (∀ l ∈ ls, l.isPtrChain = false) → dropElements ls = (ls, pure 0)
  | [], _ => rfl
  | l :: ls, h => by
    obtain ⟨hl, h⟩ := List.forall_mem_cons.mp h
    rw [dropElements, if_neg (by simp [hl]), dropElements_of_none h]

/-- The second line is the first one or, for a pointer access chain, the plain one that
    defines the same and has all operands but the element. -/
def ElementDropped (l l' : Line) : Prop :=
  if l.isPtrChain then
    l'.opcode? = some Opcode.accessChain ∧ l'.defined? = l.defined? ∧ l'.operands = l.operands.eraseIdx 2
  else l' = l

theorem elementDropped_withoutElement (l : Line) : ElementDropped l l.withoutElement := by
  unfold ElementDropped withoutElement
  split
  · have words : ∀ t ∈ l.operands.eraseIdx 2, Text.IsWord t := fun t ht =>
      isWord_of_mem_operands (List.mem_of_mem_eraseIdx ht)
    have made := consistsOf_ofParts (by decide : IsOpcodeWord Opcode.accessChain) words l
    exact ⟨made.opcode, made.defined, made.operands⟩
  · rfl

theorem isPtrChain_withoutElement (l : Line) : l.withoutElement.isPtrChain = false := by
  have dropped := elementDropped_withoutElement l
  unfold ElementDropped at dropped
  split at dropped
  · rw [isPtrChain, hasOpcode, dropped.1]
    decide
  · next other => rw [dropped, eq_false_of_ne_true other]

/-! ## Lanes -/

/-- The second line is the first one or, for a shuffle with an undefined lane, the shuffle that
    defines the same and has lane 0 in the place of each undefined one. -/
def LanesDefined (l l' : Line) : Prop :=
  (l.hasOpcode Opcode.vectorShuffle = true ∧ undefinedLane ∈ l.operands →
    l'.opcode? = some Opcode.vectorShuffle ∧ l'.defined? = l.defined? ∧ l'.operands = l.operands.map definedLane) ∧
  (¬ (l.hasOpcode Opcode.vectorShuffle = true ∧ undefinedLane ∈ l.operands) → l' = l)

theorem countUndefinedLanes_eq_zero_iff :
    l.countUndefinedLanes = 0 ↔ ¬ (l.hasOpcode Opcode.vectorShuffle = true ∧ undefinedLane ∈ l.operands) := by
  unfold countUndefinedLanes
  split
  · next h => simp [h, List.count_eq_zero]
  · next h => simp [h]

theorem lanesDefined_defineLanes (l : Line) : LanesDefined l l.defineLanes := by
  constructor
  · intro undefined
    rcases defineLanes_cases l with ⟨none, -⟩ | ⟨-, heq⟩
    · exact absurd undefined (countUndefinedLanes_eq_zero_iff.mp none)
    · have words : ∀ t ∈ l.operands.map definedLane, Text.IsWord t := fun _ => isWord_of_mem_lanes
      have made := consistsOf_ofParts (by decide : IsOpcodeWord Opcode.vectorShuffle) words l
      rw [heq]
      exact ⟨made.opcode, made.defined, made.operands⟩
  · exact fun none => if_pos (countUndefinedLanes_eq_zero_iff.mpr none)

theorem countUndefinedLanes_defineLanes (l : Line) : l.defineLanes.countUndefinedLanes = 0 :=
  countUndefinedLanes_eq_zero_iff.mpr fun h => defineLanes_defined l h.1 h.2

/-- The lanes counted line by line are those among the operands of all shuffles. -/
theorem total_countUndefinedLanes (ls : List Line) : total countUndefinedLanes ls =
    ((ls.filter (hasOpcode Opcode.vectorShuffle)).flatMap operands).count undefinedLane := by
  induction ls with
  | nil => rfl
  | cons l ls ih =>
    rw [total, ih, countUndefinedLanes]
    cases hop : l.hasOpcode Opcode.vectorShuffle with
    | true => rw [if_pos rfl, List.filter_cons_of_pos hop, List.flatMap_cons, List.count_append]
    | false => rw [if_neg (by simp), List.filter_cons_of_neg (by simp [hop]), Nat.zero_add]

/-- Without undefined lanes there is nothing to do and nothing to tell. -/
theorem defineAllLanes_of_none (h : ∀ l ∈ ls, l.countUndefinedLanes = 0) : defineAllLanes ls = (ls, pure 0) := by
  have none : total countUndefinedLanes ls = 0 := total_eq_zero_iff.mpr h
  have same : ls.map defineLanes = ls := (List.map_congr_left fun l hl => if_pos (h l hl)).trans (List.map_id ls)
  rw [defineAllLanes, none, same]
  rfl

/-! ## Both edits -/

theorem countUndefinedLanes_of_ptrChain (h : l.isPtrChain = true) : l.countUndefinedLanes = 0 := by
  refine countUndefinedLanes_eq_zero_iff.mpr fun shuffle => ?_
  have := (eq_of_beq h).symm.trans (eq_of_beq shuffle.1)
  exact absurd this (by decide)

theorem countUndefinedLanes_withoutElement (l : Line) : l.withoutElement.countUndefinedLanes = l.countUndefinedLanes := by
  cases hp : l.isPtrChain with
  | true =>
    have dropped := elementDropped_withoutElement l
    rw [ElementDropped, if_pos hp] at dropped
    rw [countUndefinedLanes_of_ptrChain hp, countUndefinedLanes, hasOpcode, dropped.1]
    exact if_neg (by decide)
  | false => rw [withoutElement_of_not hp]

theorem isPtrChain_defineLanes (l : Line) : l.defineLanes.isPtrChain = l.isPtrChain := by
  rw [isPtrChain, isPtrChain, hasOpcode, hasOpcode, defineLanes_opcode?]

theorem indexed_defineLanes (h : l.Indexed) : l.defineLanes.Indexed := by
  intro hp
  rw [isPtrChain_defineLanes] at hp
  rw [defineLanes, if_pos (countUndefinedLanes_of_ptrChain hp)]
  exact h hp

/-- No line is edited twice, so the edits of a line can change places. -/
theorem withoutElement_defineLanes (l : Line) : l.defineLanes.withoutElement = l.withoutElement.defineLanes := by
  cases hp : l.isPtrChain with
  | true =>
    have none := countUndefinedLanes_of_ptrChain hp
    have none' := (countUndefinedLanes_withoutElement l).trans none
    rw [defineLanes, if_pos none, defineLanes, if_pos none']
  | false => rw [withoutElement_of_not hp, withoutElement_of_not ((isPtrChain_defineLanes l).trans hp)]

/-- Replacing pointer access chains succeeds exactly where each has an index, counts them, and
    changes their opcode and their element operand and nothing else; the error names the first
    one without an index. Defining lanes counts the undefined ones and changes them and nothing
    else. Either edit done again does nothing, and both give the same lines and numbers in
    either order. -/
theorem edits_exact (ls : List Line) :
    (∀ n, (dropElements ls).2.result = .ok n ↔ (∀ l ∈ ls, l.Indexed) ∧ n = ls.countP isPtrChain) ∧
    (∀ before l after, ls = before ++ l :: after → (∀ k ∈ before, k.Indexed) → ¬ l.Indexed →
      (dropElements ls).2.result = .error (.malformedInstruction l.text .shortAccessChain)) ∧
    ((∀ l ∈ ls, l.Indexed) →
      List.Forall₂ ElementDropped ls (dropElements ls).1 ∧
      dropElements (dropElements ls).1 = ((dropElements ls).1, pure 0) ∧
      (dropElements (defineAllLanes ls).1).1 = (defineAllLanes (dropElements ls).1).1 ∧
      (dropElements (defineAllLanes ls).1).2.result = (dropElements ls).2.result ∧
      (defineAllLanes (dropElements ls).1).2 = (defineAllLanes ls).2) ∧
    (defineAllLanes ls).2.result =
      .ok (((ls.filter (hasOpcode Opcode.vectorShuffle)).flatMap operands).count undefinedLane) ∧
    List.Forall₂ LanesDefined ls (defineAllLanes ls).1 ∧
    defineAllLanes (defineAllLanes ls).1 = ((defineAllLanes ls).1, pure 0) := by
  refine ⟨fun n => dropElements_eq_ok_iff, ?_, fun indexed => ?_, ?_, ?_, ?_⟩
  · rintro before l after rfl indexed short
    exact dropElements_of_short short indexed after
  · obtain ⟨lines, count⟩ := dropElements_of_indexed indexed
    have indexed' : ∀ l ∈ ls.map defineLanes, l.Indexed :=
      List.forall_mem_map.mpr fun l hl => indexed_defineLanes (indexed l hl)
    obtain ⟨lines', count'⟩ := dropElements_of_indexed indexed'
    refine ⟨?_, ?_, ?_, ?_, ?_⟩
    · rw [lines, List.forall₂_map_right_iff, List.forall₂_same]
      exact fun l _ => elementDropped_withoutElement l
    · refine dropElements_of_none ?_
      rw [lines]
      exact List.forall_mem_map.mpr fun l _ => isPtrChain_withoutElement l
    · show (dropElements (ls.map defineLanes)).1 = (dropElements ls).1.map defineLanes
      rw [lines, lines', List.map_map, List.map_map]
      exact List.map_congr_left fun l _ => withoutElement_defineLanes l
    · show (dropElements (ls.map defineLanes)).2.result = _
      rw [count, count', List.countP_map]
      exact congrArg _ (List.countP_congr fun l _ => by rw [Function.comp_apply, isPtrChain_defineLanes])
    · rw [lines, defineAllLanes, defineAllLanes, total_map_of_eq countUndefinedLanes_withoutElement]
  · exact congrArg _ (total_countUndefinedLanes ls)
  · show List.Forall₂ LanesDefined ls (ls.map defineLanes)
    rw [List.forall₂_map_right_iff, List.forall₂_same]
    exact fun l _ => lanesDefined_defineLanes l
  · exact defineAllLanes_of_none (List.forall_mem_map.mpr fun l _ => countUndefinedLanes_defineLanes l)

/-- A chain with two indices and an equals sign among its operands, a shuffle that defines
    nothing, and a chain in a comment. -/
def mixedLines : List Line :=
  ["  %p =OpInBoundsPtrAccessChain %type %base %element %i=0 %j", "; OpInBoundsPtrAccessChain %type",
    "OpVectorShuffle %v4 %a %b 4294967295 1  4294967295"].map fun s => ⟨s.toList⟩

theorem edits_exact_mixed : (∀ l ∈ mixedLines, l.Indexed) ∧ (dropElements mixedLines).2.result = .ok 1 ∧
    (defineAllLanes mixedLines).2.result = .ok 2 ∧
    dropElements (dropElements mixedLines).1 = ((dropElements mixedLines).1, pure 0) ∧
    (dropElements (defineAllLanes mixedLines).1).1 =
      ["%p = OpAccessChain %type %base %i=0 %j", "; OpInBoundsPtrAccessChain %type",
        "OpVectorShuffle %v4 %a %b 0 1 0"].map fun s => ⟨s.toList⟩ := by
  have indexed : ∀ l ∈ mixedLines, l.Indexed := by decide +kernel
  obtain ⟨succeeds, -, edits, lanes, -, -⟩ := edits_exact mixedLines
  obtain ⟨-, again, order, -, -⟩ := edits indexed
  exact ⟨indexed, (succeeds 1).mpr ⟨indexed, by decide +kernel⟩, lanes.trans (by decide +kernel), again,
    order.trans (by decide +kernel)⟩

end SpirvLink.Line
