/-
  SpirvLink.Proofs.Link.Sifting — where lines stand after fusing and sweeping.

  Fusing deletes types and constants, sweeping comments and empty lines. None of these
  limits a region, a function or a body (`Line.Passive`), and every other line stays in its
  place with its role and with what it defines (`Sifted`). So what was a function is one
  still, of the same kind (`Module.Closes.sifted`, `Module.Declares.sifted`). The first
  type or constant of a module is never deleted, since nothing is known when it is read
  (`first_definition_stays`).
-/

import SpirvLink.Proofs.Link.Sweeping

namespace SpirvLink

open Line

/-! ## Lines that may go -/

/-- The line limits no region, no function and no body. -/
def Line.Passive (l : Line) : Prop :=
  ∀ op ∈ Opcode.limits, l.opcode? ≠ some op

variable {l l' : Line} {ls ls' ls'' : List Line} {p : Line → Bool}

theorem Line.passive_of_typeOrConstant (h : l.isTypeOrConstant = true) : l.Passive := by
  intro op hop ho
  have untyped : ∀ op ∈ Opcode.limits, Opcode.isTypeOrConstant op = false := by decide
  rw [isTypeOrConstant, ho, Option.any_some, untyped op hop] at h
  cases h

theorem Line.passive_of_not_hasCode (h : l.hasCode = false) : l.Passive := by
  intro op _ ho
  rw [hasCode_of_opcode? ho] at h
  cases h

theorem Line.SameRole.passive (h : SameRole l l') (hp : l'.Passive) : l.Passive :=
  fun op hop ho => hp op hop ((h.opcode op hop).mpr ho)

theorem Line.Passive.hasOpcode (h : l.Passive) {op : Text} (hop : op ∈ Opcode.limits) : l.hasOpcode op = false :=
  beq_eq_false_iff_ne.mpr (h op hop)

theorem Line.Passive.isReturn (h : l.Passive) : l.isReturn = false := by
  rw [Line.isReturn, Option.any_eq_false]
  intro op ho
  rw [Bool.eq_false_iff]
  intro hr
  rcases (Bool.or_eq_true_iff.mp hr).imp eq_of_beq eq_of_beq with rfl | rfl
  · exact h _ (by decide) ho
  · exact h _ (by decide) ho

/-- The second list is the first one with passive lines left out. -/
inductive Sifted : List Line → List Line → Prop
  | nil : Sifted [] []
  | keep {l l' : Line} {ls ls' : List Line} (stays : Stays l l') (rest : Sifted ls ls') : Sifted (l :: ls) (l' :: ls')
  | drop {l : Line} {ls ls' : List Line} (passive : l.Passive) (rest : Sifted ls ls') : Sifted (l :: ls) ls'

namespace Sifted

theorem trans (h : Sifted ls ls') (h' : Sifted ls' ls'') : Sifted ls ls'' := by
  induction h generalizing ls'' with
  | nil => exact h'
  | keep stays _ ih =>
    cases h' with
    | keep stays' rest' => exact .keep (stays.trans stays') (ih rest')
    | drop passive rest' => exact .drop (stays.role.passive passive) (ih rest')
  | drop passive _ ih => exact .drop passive (ih h')

theorem append {ks ks' : List Line} (h : Sifted ls ls') (hk : Sifted ks ks') : Sifted (ls ++ ks) (ls' ++ ks') := by
  induction h with
  | nil => exact hk
  | keep stays _ ih => exact .keep stays ih
  | drop passive _ ih => exact .drop passive ih

theorem mem (h : Sifted ls ls') (hl : l' ∈ ls') : ∃ l ∈ ls, Stays l l' := by
  induction h with
  | nil => cases hl
  | @keep k k' _ _ stays _ ih =>
    rcases List.mem_cons.mp hl with rfl | hl
    · exact ⟨k, List.mem_cons_self .., stays⟩
    · obtain ⟨j, hj, hjl⟩ := ih hl
      exact ⟨j, List.mem_cons_of_mem _ hj, hjl⟩
  | drop _ _ ih =>
    obtain ⟨j, hj, hjl⟩ := ih hl
    exact ⟨j, List.mem_cons_of_mem _ hj, hjl⟩

/-- A line that is not passive stays first. -/
theorem head? (h : Sifted ls ls') {first : Line} (hfirst : first ∈ ls.head?) (active : ¬ first.Passive) :
    ∃ first' ∈ ls'.head?, Stays first first' := by
  cases h with
  | nil => cases hfirst
  | keep stays _ =>
    cases hfirst
    exact ⟨_, rfl, stays⟩
  | drop passive _ =>
    cases hfirst
    exact absurd passive active

theorem any_isReturn (h : Sifted ls ls') : ls'.any Line.isReturn = ls.any Line.isReturn := by
  induction h with
  | nil => rfl
  | keep stays _ ih => rw [List.any_cons, List.any_cons, stays.role.isReturn, ih]
  | drop passive _ ih => rw [List.any_cons, passive.isReturn, Bool.false_or, ih]

end Sifted

namespace Module

theorem Closes.sifted (h : Closes ls) (sifted : Sifted ls ls') : Closes ls' := by
  induction sifted with
  | nil => exact h
  | keep stays rest ih =>
    rw [closes_cons] at h ⊢
    rw [stays.role.hasOpcode (by decide)]
    refine h.imp (fun h => ⟨?_, h.2⟩) fun h => ⟨h.1, ih h.2⟩
    rw [h.1] at rest
    cases rest
    rfl
  | drop passive _ ih =>
    refine ih ((closes_cons.mp h).resolve_left fun h => ?_).2
    rw [passive.hasOpcode (by decide)] at h
    cases h.2

theorem not_passive_of_starts {first : Line} (h : first.startsFunction = true) : ¬ first.Passive := by
  intro hp
  rw [startsFunction, hp.hasOpcode (by decide)] at h
  cases h

/-- A run that declares a function still does, and has its kind. -/
theorem Declares.sifted (h : Declares ls) (sifted : Sifted ls ls') :
    Declares ls' ∧ (blockOf ls').kind = (blockOf ls).kind := by
  obtain ⟨first, hfirst, hstarts, hdefined⟩ := h
  cases sifted with
  | nil => cases hfirst
  | @keep _ first' ks ks' stays rest =>
    cases hfirst
    refine ⟨⟨first', rfl, by rw [stays.role.startsFunction, hstarts], by rw [stays.defined, hdefined]⟩, ?_⟩
    rw [blockOf, blockOf, List.head?_cons, List.head?_cons, Option.bind_some, Option.bind_some, stays.defined, runKind,
      runKind, List.tail_cons, List.tail_cons, rest.any_isReturn]
  | drop passive _ =>
    cases hfirst
    exact absurd passive (not_passive_of_starts hstarts)

end Module

/-! ## Fusing and sweeping -/

/-- The line stays, or it may go and is blank. -/
def Line.Sinks (l l' : Line) : Prop :=
  Stays l l' ∨ l' = Line.blank ∧ l.Passive

theorem Fusion.Fate.sinks (h : Fusion.Fate l l') : Sinks l l' := by
  rcases h with ⟨f, hf, rfl⟩ | ⟨rfl, htype⟩
  · exact Or.inl (stays_renameOperands hf l)
  · exact Or.inr ⟨rfl, passive_of_typeOrConstant htype⟩

theorem Line.Sinks.renameOperands {f : Text → Text} (hf : Text.Keeps f) (h : Sinks l l') :
    Sinks l (l'.renameOperands f) := by
  rcases h with stays | ⟨rfl, passive⟩
  · exact Or.inl (stays.trans (stays_renameOperands hf l'))
  · exact Or.inr ⟨rfl, passive⟩

theorem sifted_of_sinks (h : List.Forall₂ Sinks ls ls') (hp : ∀ l, p l = false → l.Passive) (hblank : p Line.blank = false) :
    Sifted ls (ls'.filter p) := by
  induction h with
  | nil => exact .nil
  | @cons l l' _ _ sinks _ ih =>
    by_cases hl : p l' = true
    · rw [List.filter_cons_of_pos hl]
      refine .keep (sinks.resolve_right ?_) ih
      rintro ⟨rfl, -⟩
      rw [hblank] at hl
      cases hl
    · rw [List.filter_cons_of_neg hl]
      refine .drop (sinks.elim (fun stays => stays.role.passive (hp l' (by simpa using hl))) And.right) ih

/-- The lines of the first block sifted are those of the second. -/
structure Block.Sifted (b b' : Block) : Prop where
  kind : b'.kind = b.kind
  lines : SpirvLink.Sifted b.lines b'.lines

theorem passive_of_isEmpty (h : (!l.isEmpty) = false) : l.Passive := by
  refine passive_of_not_hasCode (Bool.eq_false_iff.mpr fun hc => ?_)
  rw [Block.not_isEmpty_of_hasCode hc] at h
  cases h

theorem Block.sifted_swept {b b' : Block} (kind : b'.kind = b.kind) (h : List.Forall₂ Sinks b.lines b'.lines) :
    Block.Sifted b b'.swept := by
  refine ⟨b'.left_swept.kind.trans kind, ?_⟩
  unfold Block.swept
  split
  · exact sifted_of_sinks h (fun l => passive_of_isEmpty) rfl
  · exact sifted_of_sinks h (fun l => passive_of_not_hasCode) rfl

theorem Block.Sifted.trans {b b' b'' : Block} (h : Block.Sifted b b') (h' : Block.Sifted b' b'') : Block.Sifted b b'' :=
  ⟨h'.kind.trans h.kind, h.lines.trans h'.lines⟩

/-- Fusing and sweeping sift every block. -/
theorem sifted_of_fuse {m fused : Module} {n : Nat} (h : m.fuse.result = .ok (n, fused)) :
    List.Forall₂ Block.Sifted m.blocks (fused.blocks.map Block.swept) := by
  obtain ⟨fates, heq | ⟨f, hf, heq⟩⟩ := fuse_eq_ok h
  · rw [heq, List.forall₂_map_right_iff]
    exact fates.imp fun b b' hb => Block.sifted_swept hb.kind (hb.lines.imp fun _ _ hl => hl.sinks)
  · rw [heq, List.map_map, List.forall₂_map_right_iff]
    refine fates.imp fun b b' hb => ?_
    have reread : Block.Sifted b (b'.rereading f) := by
      refine ⟨hb.kind, sifted_of_sinks (List.forall₂_map_right_iff.mpr ?_) (fun l => passive_of_isEmpty) rfl⟩
      exact hb.lines.imp fun _ _ hl => hl.sinks.renameOperands hf
    exact reread.trans (Block.sifted_swept rfl (List.forall₂_same.mpr fun l _ => Or.inl (.refl l)))

/-! ## The first definition -/

namespace Fusion

variable {s : Fusion}

/-- What is no type and no constant is not remembered. -/
theorem known_readLine (named : Named s) (hl : l.isTypeOrConstant = false) : (s.readLine l).1.known = s.known := by
  have keeps := keeps_apply named.renames
  have untyped : definition? (l.renameOperands s.renames.apply) = none := by
    rw [definition?, ((renamed_renameOperands keeps).sameRole keeps).typed, hl, if_neg Bool.false_ne_true]
  rcases hr : s.readLine l with ⟨s', l'⟩
  cases readLine_eq_iff.mp hr with
  | bare _ => rfl
  | other _ _ => rfl
  | deleted _ hd _ => cases untyped.symm.trans hd
  | kept _ hd _ => cases untyped.symm.trans hd

theorem known_readLines : ∀ {s : Fusion} {ls : List Line}, Named s → (∀ l ∈ ls, l.isTypeOrConstant = false) →
    (s.readLines ls).1.known = s.known
  | _, [], _, _ => rfl
  | s, l :: ls, named, h => by
    obtain ⟨hl, hls⟩ := List.forall_mem_cons.mp h
    exact (known_readLines (readLine_named named l) hls).trans (known_readLine named hl)

/-- While nothing is known, nothing is deleted. -/
theorem stays_readLine (named : Named s) (known : s.known = []) (l : Line) : Stays l (s.readLine l).2 := by
  rcases hr : s.readLine l with ⟨s', l'⟩
  cases readLine_eq_iff.mp hr with
  | bare _ => exact .refl l
  | other _ _ => exact stays_renameOperands (keeps_apply named.renames) l
  | deleted _ _ hk =>
    rw [known] at hk
    cases hk
  | kept _ _ _ => exact stays_renameOperands (keeps_apply named.renames) l

theorem stays_readBlocks (after : List Block) : ∀ {s : Fusion} {before : List Block} {b : Block}, Named s →
    s.known = [] → (∀ c ∈ before, ∀ k ∈ c.lines, k.isTypeOrConstant = false) → b.lines = l :: ls →
    ∃ b' ∈ (s.readBlocks (before ++ b :: after)).2, b'.kind = b.kind ∧ ∃ l' ∈ b'.lines, Stays l l'
  | s, [], b, named, known, _, hb => by
    refine ⟨{ b with lines := (s.readLines b.lines).2 }, List.mem_cons_self .., rfl, (s.readLine l).2, ?_,
      stays_readLine named known l⟩
    show (s.readLine l).2 ∈ (s.readLines b.lines).2
    rw [hb]
    exact List.mem_cons_self ..
  | s, c :: before, b, named, known, untyped, hb => by
    obtain ⟨hc, untyped⟩ := List.forall_mem_cons.mp untyped
    obtain ⟨b', hb', h⟩ := stays_readBlocks after (readLines_fates c.lines named).1
      ((known_readLines named hc).trans known) untyped hb
    exact ⟨b', List.mem_cons_of_mem _ hb', h⟩

end Fusion

theorem first_definition_stays {m fused : Module} {n : Nat} {before after : List Block} {b : Block}
    (h : m.fuse.result = .ok (n, fused)) (hm : m.blocks = before ++ b :: after)
    (untyped : ∀ c ∈ before, ∀ k ∈ c.lines, k.isTypeOrConstant = false) (hb : b.lines = l :: ls)
    (typed : l.isTypeOrConstant = true) :
    ∃ b' ∈ fused.blocks.map Block.swept, b'.kind = b.kind ∧ ∃ l' ∈ b'.lines, l'.isTypeOrConstant = true := by
  obtain ⟨c, hc, hkind, k, hk, stays⟩ := Fusion.stays_readBlocks after Fusion.named_start rfl untyped hb
  rw [← hm] at hc
  have htyped : k.isTypeOrConstant = true := stays.role.typed.trans typed
  obtain ⟨-, heq | ⟨f, hf, heq⟩⟩ := fuse_eq_ok h
  · refine ⟨c.swept, heq ▸ List.mem_map_of_mem hc, c.left_swept.kind.trans hkind, k, ?_, htyped⟩
    exact Block.mem_swept hk (marks_isTypeOrConstant.code k htyped)
  · have renamed : (k.renameOperands f).isTypeOrConstant = true := (stays_renameOperands hf k).role.typed.trans htyped
    have code := marks_isTypeOrConstant.code _ renamed
    refine ⟨(c.rereading f).swept, heq ▸ List.mem_map_of_mem (List.mem_map_of_mem hc),
      (c.rereading f).left_swept.kind.trans hkind, k.renameOperands f, ?_, renamed⟩
    refine Block.mem_swept (List.mem_filter.mpr ⟨List.mem_map_of_mem hk, ?_⟩) code
    rw [Block.not_isEmpty_of_hasCode code]
    rfl

end SpirvLink
