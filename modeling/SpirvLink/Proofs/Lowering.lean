/-
  SpirvLink.Proofs.Lowering — main after its instructions are lowered.

  Both edits put instructions together anew, so what they make is read back
  (`consistsOf_ofParts`). After them no line is an in-bounds pointer access chain or a shuffle
  with an undefined lane, and no line becomes a call (`lowered_of_edits`); every line that
  is neither keeps its opcode. A well-spaced line defines what it did and uses no other
  identifiers than before (`narrows_of_edits`).
-/

import SpirvLink.Lowering.AccessChain
import SpirvLink.Lowering.VectorShuffle
import SpirvLink.Proofs.Line.Roles
import SpirvLink.Proofs.Line.WellSpaced

namespace SpirvLink.Line

variable {l l' : Line} {ls : List Line} {n : Nat}

theorem isWord_of_mem_operands {t : Text} (h : t ∈ l.operands) : Text.IsWord t := by
  unfold operands at h
  split at h
  · exact Text.isWord_of_mem_words (List.mem_of_mem_tail h)
  · cases h

/-! ## Access chains -/

theorem dropElement_eq_ok (h : l.dropElement = .ok l') :
    ∃ operands, operands ⊆ l.operands ∧ l' = ofParts l.defined? Opcode.accessChain operands := by
  unfold dropElement at h
  split at h
  · next type base element index rest hops =>
    cases h
    refine ⟨type :: base :: index :: rest, fun t ht => ?_, rfl⟩
    rw [hops]
    simp only [List.mem_cons] at ht ⊢
    tauto
  · cases h

theorem dropElement_reads (h : l.dropElement = .ok l') : l'.opcode? = some Opcode.accessChain := by
  obtain ⟨operands, subset, rfl⟩ := dropElement_eq_ok h
  exact (consistsOf_ofParts (by decide) (fun _ ht => isWord_of_mem_operands (subset ht)) l).opcode

theorem stays_dropElement (hp : l.isPtrChain = true) (h : l.dropElement = .ok l') : Stays l l' := by
  obtain ⟨operands, subset, rfl⟩ := dropElement_eq_ok h
  exact stays_ofParts (by decide) (fun _ ht => isWord_of_mem_operands (subset ht)) (eq_of_beq hp) ⟨by decide, by decide⟩

/-- Each line stays, or it was a pointer access chain and is a plain one. -/
theorem forall₂_dropElements : ∀ {ls : List Line} {n : Nat}, (dropElements ls).2.result = .ok n →
    List.Forall₂ (fun l l' => (l.isPtrChain = false ∧ l' = l) ∨
      (l.isPtrChain = true ∧ l.dropElement = .ok l')) ls (dropElements ls).1
  | [], _, _ => .nil
  | l :: ls, n, h => by
    rw [dropElements] at h ⊢
    by_cases hp : l.isPtrChain = true
    · rw [if_pos hp] at h ⊢
      cases hd : l.dropElement with
      | error e =>
        rw [hd] at h
        cases h
      | ok new =>
        rw [hd] at h
        obtain ⟨-, -, h⟩ := Logged.bind_result_eq_ok.mp h
        obtain ⟨k, hk, -⟩ := Logged.bind_result_eq_ok.mp h
        exact .cons (Or.inr ⟨hp, hd⟩) (forall₂_dropElements hk)
    · rw [if_neg hp] at h ⊢
      exact .cons (Or.inl ⟨by simpa using hp, rfl⟩) (forall₂_dropElements h)

/-! ## Lanes -/

/-- The line stays, or it is a shuffle of defined lanes. -/
theorem defineLanes_cases (l : Line) : (l.countUndefinedLanes = 0 ∧ l.defineLanes = l) ∨
    (l.hasOpcode Opcode.vectorShuffle = true ∧
      l.defineLanes = ofParts l.defined? Opcode.vectorShuffle (l.operands.map definedLane)) := by
  unfold defineLanes
  split
  · next h => exact Or.inl ⟨h, rfl⟩
  · next h =>
    refine Or.inr ⟨?_, rfl⟩
    unfold countUndefinedLanes at h
    split at h
    · assumption
    · exact absurd rfl h

theorem isWord_of_mem_lanes {t : Text} (h : t ∈ l.operands.map definedLane) : Text.IsWord t := by
  obtain ⟨operand, hoperand, rfl⟩ := List.mem_map.mp h
  unfold definedLane
  split
  · decide
  · exact isWord_of_mem_operands hoperand

theorem stays_defineLanes (l : Line) : Stays l l.defineLanes := by
  rcases defineLanes_cases l with ⟨-, heq⟩ | ⟨hop, heq⟩
  · rw [heq]
    exact .refl l
  · rw [heq]
    exact stays_ofParts (by decide) (fun _ => isWord_of_mem_lanes) (eq_of_beq hop) ⟨fun _ _ => Iff.rfl, rfl⟩

theorem defineLanes_defined (l : Line) : l.defineLanes.hasOpcode Opcode.vectorShuffle = true →
    undefinedLane ∉ l.defineLanes.operands := by
  intro hop hm
  rcases defineLanes_cases l with ⟨hcount, heq⟩ | ⟨-, heq⟩
  · rw [heq] at hop hm
    rw [countUndefinedLanes, if_pos hop] at hcount
    exact List.count_eq_zero.mp hcount hm
  · rw [heq, (consistsOf_ofParts (by decide) (fun _ => isWord_of_mem_lanes) l).operands] at hm
    obtain ⟨t, -, ht⟩ := List.mem_map.mp hm
    unfold definedLane at ht
    split at ht
    · exact absurd ht (by decide)
    · exact absurd ht ‹_›

theorem defineLanes_opcode? (l : Line) : l.defineLanes.opcode? = l.opcode? := by
  rcases defineLanes_cases l with ⟨-, heq⟩ | ⟨hop, heq⟩
  · rw [heq]
  · rw [heq, (consistsOf_ofParts (by decide) (fun _ => isWord_of_mem_lanes) l).opcode, eq_of_beq hop]

/-! ## Both edits -/

/-- The line is none of the instructions that a link replaces. -/
structure Lowered (l : Line) : Prop where
  noCall : l.hasOpcode Opcode.functionCall = false
  noPtrChain : l.hasOpcode Opcode.inBoundsPtrAccessChain = false
  defined : l.hasOpcode Opcode.vectorShuffle = true → undefinedLane ∉ l.operands

theorem noCall_dropElements (h : (dropElements ls).2.result = .ok n) (clean : ∀ l ∈ ls, l.isCall = false) :
    ∀ l ∈ (dropElements ls).1, l.isCall = false ∧ l.isPtrChain = false := by
  intro k hk
  obtain ⟨j, hj, hjk⟩ := exists_of_forall₂_right (forall₂_dropElements h) k hk
  rcases hjk with ⟨hp, rfl⟩ | ⟨-, hd⟩
  · exact ⟨clean _ hj, hp⟩
  · rw [isCall, isPtrChain, hasOpcode, hasOpcode, dropElement_reads hd]
    decide

theorem isCall_defineLanes (l : Line) : l.defineLanes.isCall = l.isCall := by
  rw [isCall, isCall, hasOpcode, hasOpcode, defineLanes_opcode?]

theorem lowered_of_edits (h : (dropElements ls).2.result = .ok n) (clean : ∀ l ∈ ls, l.isCall = false) :
    ∀ l ∈ (dropElements ls).1.map defineLanes, Lowered l := by
  intro l hl
  obtain ⟨k, hk, rfl⟩ := List.mem_map.mp hl
  obtain ⟨noCall, noChain⟩ := noCall_dropElements h clean k hk
  refine ⟨(isCall_defineLanes k).trans noCall, ?_, defineLanes_defined k⟩
  rw [hasOpcode, defineLanes_opcode?]
  exact noChain

/-- Other instructions stay what they are. -/
theorem exists_opcode_of_edits (h : (dropElements ls).2.result = .ok n) {op : Text}
    (hop : op ≠ Opcode.inBoundsPtrAccessChain) (hl : ∃ l ∈ ls, l.opcode? = some op) :
    ∃ l ∈ (dropElements ls).1.map defineLanes, l.opcode? = some op := by
  obtain ⟨l, hl, ho⟩ := hl
  obtain ⟨k, hk, ⟨-, rfl⟩ | ⟨hp, -⟩⟩ := exists_of_forall₂ (forall₂_dropElements h) l hl
  · exact ⟨k.defineLanes, List.mem_map_of_mem hk, by rw [defineLanes_opcode?, ho]⟩
  · rw [isPtrChain, hasOpcode, ho] at hp
    exact absurd (Option.some.inj (eq_of_beq hp)) hop

/-- Both edits leave each line in its place, with what it defines. -/
theorem stays_of_edits (h : (dropElements ls).2.result = .ok n) :
    List.Forall₂ Stays ls ((dropElements ls).1.map defineLanes) := by
  rw [List.forall₂_map_right_iff]
  refine (forall₂_dropElements h).imp fun l k hlk => ?_
  have dropped : Stays l k := by
    rcases hlk with ⟨-, rfl⟩ | ⟨hp, hd⟩
    · exact .refl _
    · exact stays_dropElement hp hd
  exact dropped.trans (stays_defineLanes k)

/-! ## What lowered lines use -/

/-- The second line defines what the first one does and uses nothing else. -/
structure Narrows (l l' : Line) : Prop where
  spaced : l'.WellSpaced
  defined : l'.defined? = l.defined?
  uses : l'.operandIds ⊆ l.operandIds

theorem Narrows.trans (h : Narrows l l') {l'' : Line} (h' : Narrows l' l'') : Narrows l l'' :=
  ⟨h'.spaced, h'.defined.trans h.defined, fun _ hid => h.uses (h'.uses hid)⟩

/-- An instruction put together of tokens of a well-spaced one, or of words without an identifier. -/
theorem narrows_ofParts (h : l.WellSpaced) {op : Text} (hop : Text.IsOpcode op) {operands : List Text}
    (tokens : ∀ t ∈ operands, t ∈ l.operands ∨ Text.IsWord t ∧ Text.sigil ∉ t) :
    Narrows l (ofParts l.defined? op operands) := by
  obtain ⟨d, w, ts, h⟩ := h
  have made : Spaced (ofParts l.defined? op operands) l.defined? op operands := by
    refine ⟨rfl, by rw [h.defined?_eq]; exact h.ident, hop, fun t ht => ?_⟩
    rcases tokens t ht with ht | ⟨word, plain⟩
    · exact h.tokens t (h.operands_eq ▸ ht)
    · refine ⟨word, fun id hid => ?_⟩
      rw [Text.identifiers_of_no_sigil plain] at hid
      cases hid
  refine ⟨⟨_, _, _, made⟩, made.defined?_eq, fun id hid => ?_⟩
  rw [made.operandIds_eq] at hid
  obtain ⟨t, ht, hid⟩ := List.mem_flatMap.mp hid
  rcases tokens t ht with ht | ⟨-, plain⟩
  · rw [h.operandIds_eq]
    exact List.mem_flatMap.mpr ⟨t, h.operands_eq ▸ ht, hid⟩
  · rw [Text.identifiers_of_no_sigil plain] at hid
    cases hid

theorem narrows_dropElement (h : l.WellSpaced) (hd : l.dropElement = .ok l') : Narrows l l' := by
  obtain ⟨operands, subset, rfl⟩ := dropElement_eq_ok hd
  exact narrows_ofParts h (by decide) fun t ht => Or.inl (subset ht)

theorem narrows_defineLanes (h : l.WellSpaced) : Narrows l l.defineLanes := by
  rcases defineLanes_cases l with ⟨-, heq⟩ | ⟨-, heq⟩
  · rw [heq]
    exact ⟨h, rfl, fun _ hid => hid⟩
  · rw [heq]
    refine narrows_ofParts h (by decide) fun t ht => ?_
    obtain ⟨operand, hoperand, rfl⟩ := List.mem_map.mp ht
    unfold definedLane
    split
    · exact Or.inr (by decide)
    · exact Or.inl hoperand

theorem narrows_of_edits (h : (dropElements ls).2.result = .ok n) (spaced : ∀ l ∈ ls, l.WellSpaced) :
    List.Forall₂ Narrows ls ((dropElements ls).1.map defineLanes) := by
  rw [List.forall₂_map_right_iff]
  have dropped := forall₂_dropElements h
  generalize (dropElements ls).1 = ls' at dropped
  clear h
  induction dropped with
  | nil => exact .nil
  | @cons l l' ls ls' hl _ ih =>
    obtain ⟨hspaced, spaced⟩ := List.forall_mem_cons.mp spaced
    refine .cons ?_ (ih spaced)
    rcases hl with ⟨-, rfl⟩ | ⟨-, hd⟩
    · exact narrows_defineLanes hspaced
    · have chain := narrows_dropElement hspaced hd
      exact chain.trans (narrows_defineLanes chain.spaced)

end SpirvLink.Line
