/-
  SpirvLink.Proofs.Module.Arranged — a sorted module is read back kind by kind.

  Printing forgets where one block ends and the next block of the same kind begins, so a
  module with several blocks of a kind is not read back as it is. What is kept are the
  lines with code of each kind, if every line stands in the region of its kind
  (`Arranged`): they are the lines of a layout, and functions are read back as blocks
  (`Arranged.exists_parse`).
-/

import SpirvLink.Proofs.Link.Sweeping
import SpirvLink.Proofs.Module.RoundTrip

namespace SpirvLink.Module

open Line

variable {m : Module} {b : Block} {k : BlockKind}

/-! ## Sorted modules -/

/-- Before a kind stand the kinds of lower rank, and it stands once. -/
theorem all_eq (k : BlockKind) : BlockKind.all = BlockKind.all.take k.rank ++ k :: BlockKind.all.drop (k.rank + 1) ∧
    (∀ j ∈ BlockKind.all.take k.rank, j.rank < k.rank) ∧ ∀ j ∈ BlockKind.all.drop (k.rank + 1), j ≠ k := by
  cases k <;> decide

theorem sorted_eq_self (h : m.blocks.Pairwise fun b c => b.kind.rank ≤ c.kind.rank) : m.sorted = m := by
  obtain ⟨bs⟩ := m
  refine congrArg Module.mk ?_
  change bs.Pairwise _ at h
  show BlockKind.all.flatMap (fun k => bs.filter fun b => b.kind == k) = bs
  induction bs with
  | nil => rfl
  | cons b bs ih =>
    obtain ⟨hb, hbs⟩ := List.pairwise_cons.mp h
    obtain ⟨all, lower, other⟩ := all_eq b.kind
    have skip : ∀ j, j ≠ b.kind → ((b :: bs).filter fun c => c.kind == j) = bs.filter fun c => c.kind == j :=
      fun j hj => List.filter_cons_of_neg (by simpa using hj.symm)
    -- No block after the first has a kind before that of the first.
    have none : (BlockKind.all.take b.kind.rank).flatMap (fun k => bs.filter fun c => c.kind == k) = [] := by
      refine List.flatMap_eq_nil_iff.mpr fun j hj => List.filter_eq_nil_iff.mpr fun c hc he => ?_
      have := hb c hc
      rw [eq_of_beq he] at this
      exact Nat.not_lt.mpr this (lower j hj)
    have ih := ih hbs
    rw [all, List.flatMap_append, List.flatMap_cons, none, List.nil_append] at ih
    rw [all, List.flatMap_append, List.flatMap_cons, List.filter_cons_of_pos (by simp),
      List.flatMap_congr fun j hj => skip j fun e => Nat.lt_irrefl _ (e ▸ lower j hj),
      List.flatMap_congr fun j hj => skip j (other j hj), none, List.nil_append, List.cons_append, ih]

theorem lines_of_sorted (h : m.blocks.Pairwise fun b c => b.kind.rank ≤ c.kind.rank) :
    m.lines = BlockKind.all.flatMap fun k => m.linesOfKind k := by
  have flat : m.sorted.lines = BlockKind.all.flatMap fun k => m.linesOfKind k := List.flatMap_assoc
  rw [← flat, sorted_eq_self h]

theorem blocksOf_of_kind {bs : List Block} (h : ∀ b ∈ bs, b.kind = k) (j : BlockKind) :
    (bs.filter fun b => b.kind == j) = if k = j then bs else [] := by
  split
  · next hk => exact List.filter_eq_self.mpr fun b hb => by simp [h b hb, hk]
  · next hk => exact List.filter_eq_nil_iff.mpr fun b hb => by simp [h b hb, hk]

theorem kind_of_mem_blocksOf : ∀ b ∈ m.blocksOf k, b.kind = k :=
  fun _ hb => (mem_blocksOf.mp hb).2

/-! ## Arranged modules -/

/-- The blocks are sorted, with one header and no plain function, and every line stands
    where a reader takes it for one of its kind. -/
structure Arranged (m : Module) : Prop where
  sorted : m.blocks.Pairwise fun b c => b.kind.rank ≤ c.kind.rank
  first : ∃ header rest, m.blocks = header :: rest ∧ header.kind = .header ∧ ∀ b ∈ rest, b.kind ≠ .header
  noFunction : ∀ b ∈ m.blocks, b.kind ≠ .function
  clean : ∀ b ∈ m.blocks, b.Clean
  whole : ∀ l ∈ m.lines, l.trim = l ∧ '\n' ∉ l.text
  header : ∀ l ∈ m.linesOfKind .header, l.endsHeader = false
  decorations : ∀ l ∈ m.linesOfKind .decorations, l.endsDecorations = false
  decorated : StartsWith Line.endsHeader (m.linesOfKind .decorations)
  definitions : ∀ l ∈ m.linesOfKind .definitions, l.isTypeOrConstant = true
  globals : ∀ l ∈ m.linesOfKind .globalVariables, l.isTypeOrConstant = false ∧ l.startsFunction = false
  typed : m.linesOfKind .globalVariables ≠ [] → m.linesOfKind .definitions ≠ []
  functions : ∀ b ∈ m.blocks, b.kind = .declaration ∨ b.kind = .main →
    Closes b.lines ∧ Declares b.lines ∧ (blockOf b.lines).kind = b.kind

/-- The lines of a module, divided by the kinds of its blocks. -/
def layout (m : Module) : Layout where
  header := codeLines (m.linesOfKind .header)
  decorations := m.linesOfKind .decorations
  definitions := m.linesOfKind .definitions
  globals := m.linesOfKind .globalVariables
  functions := (m.blocksOf .declaration ++ m.blocksOf .main).map Block.lines

namespace Arranged

theorem runs (a : m.Arranged) (hb : b ∈ m.blocksOf .declaration ++ m.blocksOf .main) :
    Closes b.lines ∧ Declares b.lines ∧ (blockOf b.lines).kind = b.kind := by
  rcases List.mem_append.mp hb with hb | hb
  · exact a.functions b (mem_blocksOf.mp hb).1 (Or.inl (mem_blocksOf.mp hb).2)
  · exact a.functions b (mem_blocksOf.mp hb).1 (Or.inr (mem_blocksOf.mp hb).2)

theorem valid (a : m.Arranged) : m.layout.Valid where
  header l hl := by
    obtain ⟨k, hk, rfl⟩ := mem_codeLines hl
    rw [marks_endsHeader.trim, a.header k hk]
  decorations := a.decorations
  decorated := a.decorated
  definitions := a.definitions
  globals := a.globals
  typed := a.typed
  functions r hr := by
    obtain ⟨b, hb, rfl⟩ := List.mem_map.mp hr
    exact ⟨(a.runs hb).1, (a.runs hb).2.1⟩

theorem codeLines_linesOfKind (a : m.Arranged) (hk : k ≠ .header) : codeLines (m.linesOfKind k) = m.linesOfKind k := by
  refine codeLines_of_code fun l hl => ?_
  obtain ⟨b, hb, rfl, hmem⟩ := mem_linesOfKind.mp hl
  exact ⟨(a.clean b hb).code hk l hmem, (a.whole l (List.mem_flatMap.mpr ⟨b, hb, hmem⟩)).1⟩

theorem codeLines_lines (a : m.Arranged) : codeLines m.lines = m.layout.lines := by
  have none : m.linesOfKind .function = [] :=
    List.flatMap_eq_nil_iff.mpr fun b hb => absurd (mem_blocksOf.mp hb).2 (a.noFunction b (mem_blocksOf.mp hb).1)
  have functions : ((m.blocksOf .declaration ++ m.blocksOf .main).map Block.lines).flatten =
      m.linesOfKind .declaration ++ m.linesOfKind .main := by
    rw [List.map_append, List.flatten_append]
    rfl
  rw [lines_of_sorted a.sorted]
  simp only [BlockKind.all, List.flatMap_cons, List.flatMap_nil, codeLines_append, none, Layout.lines, layout, functions,
    a.codeLines_linesOfKind (show BlockKind.decorations ≠ .header by decide),
    a.codeLines_linesOfKind (show BlockKind.definitions ≠ .header by decide),
    a.codeLines_linesOfKind (show BlockKind.globalVariables ≠ .header by decide),
    a.codeLines_linesOfKind (show BlockKind.declaration ≠ .header by decide),
    a.codeLines_linesOfKind (show BlockKind.main ≠ .header by decide)]
  simp [codeLines]

theorem functionBlocks (a : m.Arranged) : m.layout.functions.map blockOf = m.blocksOf .declaration ++ m.blocksOf .main := by
  rw [layout, List.map_map]
  refine (List.map_congr_left fun b hb => ?_).trans (List.map_id _)
  exact congrArg (Block.mk · b.lines) (a.runs hb).2.2

/-- The blocks that are read have the lines of each kind, in order. -/
theorem lines_blocks (a : m.Arranged) (hk : k ≠ .header) :
    (m.layout.blocks.filter fun b => b.kind == k).flatMap Block.lines = m.linesOfKind k := by
  have globals : ((if m.layout.globals.isEmpty then [] else [(⟨.globalVariables, m.layout.globals⟩ : Block)]).filter
      fun b => b.kind == k).flatMap Block.lines = if .globalVariables = k then m.linesOfKind .globalVariables else [] := by
    rw [blocksOf_of_kind (k := .globalVariables) (by split <;> simp)]
    split
    · show List.flatMap Block.lines (if (m.linesOfKind .globalVariables).isEmpty then [] else
        [⟨.globalVariables, m.linesOfKind .globalVariables⟩]) = _
      cases m.linesOfKind .globalVariables <;> simp
    · rfl
  rw [Layout.blocks, a.functionBlocks, List.filter_append, List.filter_append, List.filter_append, List.flatMap_append,
    List.flatMap_append, List.flatMap_append, globals, blocksOf_of_kind kind_of_mem_blocksOf, blocksOf_of_kind kind_of_mem_blocksOf]
  cases k
  case header => exact absurd rfl hk
  case function =>
    have none : m.linesOfKind .function = [] :=
      List.flatMap_eq_nil_iff.mpr fun b hb => absurd (mem_blocksOf.mp hb).2 (a.noFunction b (mem_blocksOf.mp hb).1)
    rw [none]
    rfl
  all_goals simp [layout, linesOfKind]

/-- A printed module is read back with the lines of each kind and with its functions. -/
theorem exists_parse (a : m.Arranged) (banners : Bool) : ∃ m', parse (m.toText banners) = .ok m' ∧
    (∀ k, (m'.linesOfKind k).filter Line.hasCode = (m.linesOfKind k).filter Line.hasCode) ∧
    m'.blocksOf .main = m.blocksOf .main ∧ m'.blocksOf .function = [] := by
  obtain ⟨header, rest, hm, hkind, hrest⟩ := a.first
  have mem_lines : ∀ {b l}, b ∈ m.blocks → l ∈ b.lines → l ∈ m.lines := fun hb hl => List.mem_flatMap.mpr ⟨_, hb, hl⟩
  have isHeader : header ∈ m.blocks := hm ▸ List.mem_cons_self ..
  have rest_sub : ∀ b ∈ rest, b ∈ m.blocks := fun b hb => hm ▸ List.mem_cons_of_mem _ hb
  have headerLines : m.linesOfKind .header = header.lines := by
    rw [linesOfKind, blocksOf, hm, List.filter_cons_of_pos (by simp [hkind]),
      List.filter_eq_nil_iff.mpr fun b hb => by simpa using hrest b hb, List.flatMap_singleton]
  obtain ⟨comments, hparse, hcomments⟩ := parse_toText_of_layout a.valid hm hkind
    (fun l hl => ⟨(a.whole l (mem_lines isHeader hl)).1, (a.clean header isHeader).noBlank l hl⟩)
    (by rw [layout, headerLines]) (fun b hb => (a.clean b (rest_sub b hb)).code (hrest b hb)) a.codeLines_lines
    (fun l hl => by
      have printable := Text.printable_trim (a.whole l hl).2
      rwa [show Text.trim l.text = l.text from congrArg Line.text (a.whole l hl).1] at printable) banners
  have noHeader : (m.layout.blocks.filter fun b => b.kind == .header) = [] :=
    List.filter_eq_nil_iff.mpr fun b hb => by simpa using Layout.kind_of_mem_blocks hb
  have silent : comments.filter Line.hasCode = [] := by
    refine List.filter_eq_nil_iff.mpr fun c hc => ?_
    obtain ⟨-, b, -, rfl⟩ := hcomments c hc
    cases b.kind <;> decide
  refine ⟨_, hparse, fun k => ?_, ?_, ?_⟩
  · by_cases hk : k = .header
    · subst hk
      rw [headerLines, linesOfKind, blocksOf, List.filter_cons_of_pos rfl, noHeader, List.flatMap_singleton, List.filter_append,
        silent, List.append_nil]
    · rw [linesOfKind, blocksOf, List.filter_cons_of_neg (by simpa using fun e => hk e.symm), a.lines_blocks hk]
  all_goals
    rw [blocksOf, List.filter_cons_of_neg (by simp), Layout.blocks, a.functionBlocks, List.filter_append,
      List.filter_append, List.filter_append, blocksOf_of_kind kind_of_mem_blocksOf, blocksOf_of_kind kind_of_mem_blocksOf]
    split <;> simp

end Arranged

end SpirvLink.Module
