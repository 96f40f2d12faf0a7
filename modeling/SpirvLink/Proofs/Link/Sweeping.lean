/-
  SpirvLink.Proofs.Link.Sweeping — sorting, removing and sweeping blocks.

  Sorting puts the kinds in order and keeps the blocks of each kind (`sorted_pairwise`,
  `filter_kind_sorted`). If main calls nothing, every plain function is removed
  (`removeUnused_eq_ok`). Sweeping drops lines and then blocks, and a block that says
  anything but a type or constant stays (`Swept`, `swept_of_fuse`).
-/

import SpirvLink.Proofs.Fusion
import SpirvLink.Proofs.Reachable

namespace SpirvLink

/-- The place of a kind in the order that a module keeps. -/
def BlockKind.rank (k : BlockKind) : Nat :=
  BlockKind.all.idxOf k

namespace Module

variable {m m' : Module} {b : Block} {n : Nat}

/-! ## Sorting -/

theorem mem_sorted : b ∈ m.sorted.blocks ↔ b ∈ m.blocks := by
  constructor
  · intro h
    obtain ⟨k, -, h⟩ := List.mem_flatMap.mp h
    exact (List.mem_filter.mp h).1
  · exact fun h => List.mem_flatMap.mpr ⟨b.kind, BlockKind.mem_all _, List.mem_filter.mpr ⟨h, by simp⟩⟩

theorem sorted_pairwise (m : Module) : m.sorted.blocks.Pairwise fun b c => b.kind.rank ≤ c.kind.rank := by
  have kinds : BlockKind.all.Pairwise fun j k => j.rank ≤ k.rank := by decide
  refine List.pairwise_flatMap.mpr ⟨fun k _ => ?_, kinds.imp fun {j k} hjk b hb c hc => ?_⟩
  · refine List.pairwise_of_forall_mem_list fun b hb c hc => ?_
    have same : b.kind.rank = c.kind.rank := by
      rw [eq_of_beq (List.mem_filter.mp hb).2, eq_of_beq (List.mem_filter.mp hc).2]
    exact Nat.le_of_eq same
  · rw [eq_of_beq (List.mem_filter.mp hb).2, eq_of_beq (List.mem_filter.mp hc).2]
    exact hjk

theorem filter_kind_sorted (m : Module) (k : BlockKind) :
    (m.sorted.blocks.filter fun b => b.kind == k) = m.blocks.filter fun b => b.kind == k := by
  have other : ∀ j, j ≠ k → ((m.blocks.filter fun b => b.kind == j).filter fun b => b.kind == k) = [] := by
    intro j hj
    refine List.filter_eq_nil_iff.mpr fun b hb hk => hj ?_
    rw [← eq_of_beq (List.mem_filter.mp hb).2, eq_of_beq hk]
  have same : ((m.blocks.filter fun b => b.kind == k).filter fun b => b.kind == k) =
      m.blocks.filter fun b => b.kind == k := by simp
  rw [sorted, BlockKind.all]
  cases k <;> simp only [List.flatMap_cons, List.flatMap_nil, List.filter_append, List.append_nil, same] <;>
    simp [other]

/-- Sorting moves main, and leaves it the first of its kind. -/
theorem main?_sorted (m : Module) : m.sorted.main? = m.main? := by
  rw [main?, main?, ← List.head?_filter, ← List.head?_filter]
  exact congrArg (fun bs => (List.head? bs).map fun b : Block => (⟨b.lines⟩ : Function)) (filter_kind_sorted m .main)

/-! ## Removing what main does not need -/

/-- If main calls nothing, it needs nothing. -/
theorem not_needs_of_clean (clean : ∀ main, m.main? = some main → ∀ l ∈ main.lines, l.isCall = false) (name : Text) :
    ¬ m.Needs name := by
  rintro ⟨main, calls, hmain, hcalls, first, hfirst, -⟩
  have noCall : main.lines.filter Line.isCall = [] :=
    List.filter_eq_nil_iff.mpr fun l hl => by simp [clean main hmain l hl]
  rw [Function.callees, Function.calls, noCall] at hcalls
  cases hcalls
  cases hfirst

/-- If main calls nothing, all plain functions go. -/
theorem removeUnused_eq_ok (clean : ∀ main, m.main? = some main → ∀ l ∈ main.lines, l.isCall = false)
    (h : m.removeUnused.result = .ok (n, m')) :
    n = (m.blocks.countP fun b => b.kind == .function) ∧
      m'.blocks = m.blocks.filter fun b => !(b.kind == .function) := by
  obtain ⟨keep, k, rfl⟩ := removeUnused_keeps h
  have others : ∀ b ∈ m.blocks, keep b = !(b.kind == .function) := by
    intro b hb
    have none : ¬ m.NeedsBlock b := fun ⟨name, _, hneeds⟩ => not_needs_of_clean clean name hneeds
    rw [Bool.eq_iff_iff, k.keep_iff b hb]
    simp [none]
  refine ⟨List.countP_congr fun b hb => by rw [others b hb, Bool.not_not], ?_⟩
  exact k.blocks.trans (List.filter_congr others)

/-- If main calls nothing, removing succeeds exactly when every plain function has a name. -/
theorem removeUnused_isOk {main : Function} (hmain : m.main? = some main) (clean : ∀ l ∈ main.lines, l.isCall = false) :
    (∃ r, m.removeUnused.result = .ok r) ↔
      ∀ b ∈ m.blocks, b.kind = .function → ∃ name, (⟨b.lines⟩ : Function).name = .ok name := by
  have cleanMain : ∀ main', m.main? = some main' → ∀ l ∈ main'.lines, l.isCall = false := by
    intro main' hmain'
    cases hmain.symm.trans hmain'
    exact clean
  rw [removeUnused_succeeds]
  refine ⟨Removable.named, fun named => ⟨⟨main, hmain, fun l hl hcall => ?_⟩, fun _ _ name _ hneeds => ?_, named⟩⟩
  · exact absurd hcall (by simp [clean l hl])
  · exact absurd hneeds (not_needs_of_clean cleanMain name)

end Module

/-! ## Sweeping -/

/-- The header loses its empty lines, every other block its comments as well. -/
def Block.swept (b : Block) : Block :=
  if b.kind == .header then b.dropEmptyLines else b.dropNonCodeLines

theorem Block.left_swept (b : Block) : Block.Left b b.swept := by
  unfold Block.swept
  split
  · exact left_dropEmptyLines b
  · exact left_dropNonCodeLines b

/-- The lines that sweeping leaves in a block. -/
def Block.leaves (b : Block) (l : Line) : Bool :=
  if b.kind == .header then !l.isEmpty else l.hasCode

theorem Block.lines_swept (b : Block) : b.swept.lines = b.lines.filter b.leaves := by
  unfold Block.swept Block.leaves
  split <;> rfl

theorem Block.leaves_of_hasCode (b : Block) {l : Line} (hc : l.hasCode = true) : b.leaves l = true := by
  rw [leaves, not_isEmpty_of_hasCode hc, hc]
  exact ite_self _

theorem Block.not_isEmpty_of_leaves {b : Block} {l : Line} (h : b.leaves l = true) : l.isEmpty = false := by
  unfold leaves at h
  split at h
  · simpa using h
  · exact not_isEmpty_of_hasCode h

theorem Block.mem_swept {b : Block} {l : Line} (hl : l ∈ b.lines) (hc : l.hasCode = true) : l ∈ b.swept.lines := by
  rw [lines_swept]
  exact List.mem_filter.mpr ⟨hl, b.leaves_of_hasCode hc⟩

theorem Block.swept_subset (b : Block) : b.swept.lines ⊆ b.lines := by
  rw [lines_swept]
  exact List.filter_subset_self _

theorem flatMap_lines_nonempty (bs : List Block) :
    (bs.filter fun b => !b.lines.isEmpty).flatMap Block.lines = bs.flatMap Block.lines := by
  induction bs with
  | nil => rfl
  | cons b bs ih =>
    by_cases hb : b.lines = []
    · rw [List.filter_cons_of_neg (by simp [hb]), List.flatMap_cons, hb, List.nil_append, ih]
    · rw [List.filter_cons_of_pos (by simpa using hb), List.flatMap_cons, List.flatMap_cons, ih]

theorem Module.lines_swept (m : Module) : m.swept.lines = m.blocks.flatMap fun b => b.swept.lines := by
  have blocks : m.swept.blocks = (m.blocks.map Block.swept).filter fun b => !b.lines.isEmpty := rfl
  rw [lines, blocks, flatMap_lines_nonempty, List.flatMap_map]

theorem Module.mem_lines_swept {m : Module} {l : Line} : l ∈ m.swept.lines ↔ ∃ b ∈ m.blocks, l ∈ b.swept.lines := by
  rw [lines_swept, List.mem_flatMap]

/-- A swept block has no blank line, and outside the header no comment. -/
structure Block.Clean (b : Block) : Prop where
  nonempty : b.lines ≠ []
  noBlank : ∀ l ∈ b.lines, l.isEmpty = false
  code : b.kind ≠ .header → ∀ l ∈ b.lines, l.hasCode = true

/-- The second module is what is left of the first one's blocks after fusing and sweeping. -/
structure Swept (m m' : Module) : Prop where
  kinds : (m'.blocks.map Block.kind).Sublist (m.blocks.map Block.kind)
  left : ∀ b' ∈ m'.blocks, b'.Clean ∧ ∃ b ∈ m.blocks, Block.Left b b'
  kept : ∀ b ∈ m.blocks, ∀ op, Text.sigil ∉ op → Opcode.isTypeOrConstant op = false →
    (∃ l ∈ b.lines, l.opcode? = some op) → ∃ b' ∈ m'.blocks, b'.kind = b.kind

theorem kinds_of_left {bs bs' : List Block} (h : List.Forall₂ Block.Left bs bs') :
    bs'.map Block.kind = bs.map Block.kind := by
  induction h with
  | nil => rfl
  | cons hb _ ih => rw [List.map_cons, List.map_cons, hb.kind, ih]

theorem clean_swept {b : Block} (h : b.swept.lines ≠ []) : b.swept.Clean := by
  refine ⟨h, ?_, fun hk => ?_⟩
  · intro l hl
    rw [b.lines_swept] at hl
    exact Block.not_isEmpty_of_leaves (List.mem_filter.mp hl).2
  · rw [b.left_swept.kind] at hk
    rw [Block.swept, if_neg (by simpa using hk)]
    exact fun l hl => (List.mem_filter.mp hl).2

theorem swept_of_fuse {m fused : Module} {n : Nat} (h : m.fuse.result = .ok (n, fused)) : Swept m fused.swept := by
  have left := left_of_fuse h
  have blocks : fused.swept.blocks = (fused.blocks.map Block.swept).filter fun b => !b.lines.isEmpty := rfl
  refine ⟨?_, fun b' hb' => ?_, fun b hb op hop hdef hsays => ?_⟩
  · rw [blocks, ← kinds_of_left left]
    have same : (fused.blocks.map Block.swept).map Block.kind = fused.blocks.map Block.kind := by
      rw [List.map_map]
      exact List.map_congr_left fun b _ => b.left_swept.kind
    rw [← same]
    exact List.Sublist.map _ List.filter_sublist
  · rw [blocks] at hb'
    obtain ⟨hb', hne⟩ := List.mem_filter.mp hb'
    obtain ⟨c, hc, rfl⟩ := List.mem_map.mp hb'
    obtain ⟨b, hb, hbc⟩ := exists_of_forall₂_right left c hc
    exact ⟨clean_swept (by simpa using hne), b, hb, hbc.trans c.left_swept⟩
  · obtain ⟨c, hc, hbc⟩ := exists_of_forall₂ left b hb
    have whole := hbc.trans c.left_swept
    obtain ⟨l, hl, ho⟩ := hsays
    obtain ⟨k, hk, -⟩ := whole.kept op hop hdef l hl ho
    refine ⟨c.swept, ?_, whole.kind⟩
    rw [blocks]
    exact List.mem_filter.mpr ⟨List.mem_map_of_mem hc, by simpa using List.ne_nil_of_mem hk⟩

end SpirvLink
