/-
  SpirvLink.Proofs.Module.RoundTrip — a printed module is read back.

  Printing puts each line on a line of text, so the text has the lines of the module, with
  banners and tabs if they are asked for (`linesOf_toText`). Neither changes a line with
  code (`codeLines_printed`). So a module whose lines stand in the order of a valid layout
  is read back as the blocks of this layout; only the header can grow, by the banners of
  the empty blocks that follow it and of the first one with lines
  (`parse_toText_of_layout`). The blocks that the reader makes are in this order, so for
  them printing and reading are inverse (`parse_toText`).
-/

import SpirvLink.Module.Printer
import SpirvLink.Proofs.Module.Regions

namespace SpirvLink

open Line

/-! ## The lines of a printed module -/

/-- The comment in a banner. -/
def BlockKind.comment (k : BlockKind) : Line :=
  ⟨"; ".toList ++ k.name.toList⟩

def BlockKind.bannerLines (k : BlockKind) : List Line :=
  [Line.blank, Line.blank, k.comment, Line.blank]

def Line.printed (banners : Bool) (l : Line) : Line :=
  ⟨(if banners && l.hasCode then ['\t'] else []) ++ l.text⟩

def Block.printed (banners : Bool) (b : Block) : List Line :=
  (if banners && b.kind != .header then b.kind.bannerLines else []) ++ b.lines.map (Line.printed banners)

def Module.printed (banners : Bool) (m : Module) : List Line :=
  m.blocks.flatMap (Block.printed banners)

variable {banners : Bool} {l : Line} {b : Block} {m : Module}

theorem Line.trim_printed (banners : Bool) (l : Line) : (l.printed banners).trim = l.trim := by
  rw [Line.printed, trim]
  split
  · exact congrArg Line.mk (Text.trim_blank (by decide) l.text)
  · rfl

theorem Line.hasCode_printed (banners : Bool) (l : Line) : (l.printed banners).hasCode = l.hasCode := by
  rw [← hasCode_trim, trim_printed, hasCode_trim]

theorem Line.isEmpty_printed (banners : Bool) (l : Line) : (l.printed banners).isEmpty = l.isEmpty := by
  rw [← isEmpty_trim, trim_printed, isEmpty_trim]

theorem Marks.printed {e : Line → Bool} (he : Marks e) (banners : Bool) (l : Line) : e (l.printed banners) = e l := by
  rw [← he.trim, trim_printed, he.trim]

theorem Line.codeLines_map_printed (banners : Bool) (ls : List Line) :
    codeLines (ls.map (Line.printed banners)) = codeLines ls := by
  rw [codeLines, List.filter_map, List.map_map]
  have code : (hasCode ∘ Line.printed banners) = hasCode := funext (hasCode_printed banners)
  have text : (trim ∘ Line.printed banners) = trim := funext (trim_printed banners)
  rw [code, text, codeLines]

theorem BlockKind.codeLines_bannerLines (k : BlockKind) : codeLines k.bannerLines = [] := by
  cases k <;> decide

theorem Block.codeLines_printed (banners : Bool) (b : Block) : codeLines (b.printed banners) = codeLines b.lines := by
  rw [Block.printed, codeLines_append, codeLines_map_printed]
  split
  · rw [BlockKind.codeLines_bannerLines, List.nil_append]
  · rfl

theorem codeLines_flatMap (f : Block → List Line) (bs : List Block) :
    codeLines (bs.flatMap f) = bs.flatMap fun b => codeLines (f b) := by
  induction bs with
  | nil => rfl
  | cons b bs ih => rw [List.flatMap_cons, codeLines_append, ih, List.flatMap_cons]

/-- Banners and tabs change no line with code. -/
theorem Module.codeLines_printed (banners : Bool) (m : Module) : codeLines (m.printed banners) = codeLines m.lines := by
  rw [Module.printed, Module.lines, codeLines_flatMap, codeLines_flatMap]
  exact congrArg (List.flatMap · m.blocks) (funext (Block.codeLines_printed banners))

/-! ## Printing line by line -/

def Line.put (l : Line) : Text :=
  l.text ++ ['\n']

theorem BlockKind.banner_eq (k : BlockKind) : k.banner = k.bannerLines.flatMap Line.put := by
  cases k <;> rfl

theorem Block.toText_eq (banners : Bool) (b : Block) : b.toText banners = (b.printed banners).flatMap Line.put := by
  have lines : b.lines.flatMap (Line.toText banners) = (b.lines.map (Line.printed banners)).flatMap Line.put := by
    rw [List.flatMap_map]
    rfl
  rw [Block.toText, Block.printed, List.flatMap_append, ← lines]
  split
  · rw [BlockKind.banner_eq]
  · rfl

theorem Module.toText_eq (banners : Bool) (m : Module) : m.toText banners = (m.printed banners).flatMap Line.put := by
  rw [Module.toText, Module.printed, List.flatMap_assoc]
  exact congrArg (List.flatMap · m.blocks) (funext (Block.toText_eq banners))

theorem Line.printable_printed (h : Text.Printable l.text) : Text.Printable (l.printed banners).text := by
  unfold Line.printed
  split
  · next hb =>
    refine h.cons ?_ (by decide)
    intro he
    have hc : l.hasCode = true := (Bool.and_eq_true_iff.mp hb).2
    rw [Line.hasCode, he] at hc
    cases hc
  · exact h

theorem BlockKind.printable_bannerLines (k : BlockKind) : ∀ l ∈ k.bannerLines, Text.Printable l.text := by
  cases k <;> decide

/-- The text of a module has the lines of the module, and those of the banners. -/
theorem Module.linesOf_toText (banners : Bool) (h : ∀ l ∈ m.lines, Text.Printable l.text) :
    linesOf (m.toText banners) = m.printed banners := by
  have printable : ∀ l ∈ m.printed banners, Text.Printable l.text := by
    intro l hl
    obtain ⟨b, hb, hl⟩ := List.mem_flatMap.mp hl
    rcases List.mem_append.mp hl with hl | hl
    · split at hl
      · exact b.kind.printable_bannerLines l hl
      · cases hl
    · obtain ⟨k, hk, rfl⟩ := List.mem_map.mp hl
      exact printable_printed (h k (List.mem_flatMap.mpr ⟨b, hb, hk⟩))
  have texts : ∀ t ∈ (m.printed banners).map Line.text, Text.Printable t := by
    intro t ht
    obtain ⟨l, hl, rfl⟩ := List.mem_map.mp ht
    exact printable l hl
  have joined := Text.splitLines_joined texts
  rw [List.flatMap_map] at joined
  rw [linesOf, toText_eq, show (m.printed banners).flatMap Line.put =
    (m.printed banners).flatMap fun l => l.text ++ ['\n'] from rfl, joined, List.map_map]
  exact List.map_id _

/-! ## Reading what was printed -/

namespace Module

variable {header : Block} {rest : List Block} {y : Layout}

/-- A comment of a printed module after its header is in a banner, where only the header
    has lines without code. -/
theorem mem_flatMap_printed (hcode : ∀ b ∈ rest, ∀ l ∈ b.lines, l.hasCode = true)
    (hl : l ∈ rest.flatMap (Block.printed banners)) (hc : l.hasCode = false) (he : l.isEmpty = false) :
    banners = true ∧ ∃ b ∈ rest, l = b.kind.comment := by
  obtain ⟨b, hb, hl⟩ := List.mem_flatMap.mp hl
  rcases List.mem_append.mp hl with hl | hl
  · split at hl
    · next hbanner =>
      refine ⟨(Bool.and_eq_true_iff.mp hbanner).1, b, hb, ?_⟩
      have blank : Line.blank.isEmpty = true := rfl
      simp only [BlockKind.bannerLines, List.mem_cons, List.not_mem_nil, or_false] at hl
      rcases hl with rfl | rfl | rfl | rfl
      · rw [blank] at he
        cases he
      · rw [blank] at he
        cases he
      · rfl
      · rw [blank] at he
        cases he
    · cases hl
  · obtain ⟨k, hk, rfl⟩ := List.mem_map.mp hl
    rw [hasCode_printed, hcode b hb k hk] at hc
    cases hc

/-- The header of a printed module is read back, and no line after it but banners. -/
theorem headerOf_printed (banners : Bool) (hm : m.blocks = header :: rest) (hkind : header.kind = .header)
    (hlines : ∀ l ∈ header.lines, l.trim = l ∧ l.isEmpty = false ∧ l.endsHeader = false)
    (hcode : ∀ b ∈ rest, ∀ l ∈ b.lines, l.hasCode = true)
    (hstart : StartsWith Line.endsHeader (codeLines (rest.flatMap Block.lines))) :
    ∃ comments, headerOf (m.printed banners) = ⟨.header, header.lines ++ comments⟩ ∧
      ∀ c ∈ comments, banners = true ∧ ∃ b ∈ rest, c = b.kind.comment := by
  set after := rest.flatMap (Block.printed banners) with hafter
  have printed : m.printed banners = header.lines.map (Line.printed banners) ++ after := by
    simp [Module.printed, hm, Block.printed, hkind, hafter]
  have own : ∀ l ∈ header.lines.map (Line.printed banners), (!l.endsHeader) = true := by
    intro l hl
    obtain ⟨k, hk, rfl⟩ := List.mem_map.mp hl
    rw [Marks.printed marks_endsHeader, (hlines k hk).2.2]
    rfl
  have kept : (header.lines.map (Line.printed banners)).filter (fun l => !l.isEmpty) =
      header.lines.map (Line.printed banners) := by
    refine List.filter_eq_self.mpr fun l hl => ?_
    obtain ⟨k, hk, rfl⟩ := List.mem_map.mp hl
    rw [isEmpty_printed, (hlines k hk).2.1]
    rfl
  have same : (header.lines.map (Line.printed banners)).map Line.trim = header.lines := by
    rw [List.map_map]
    refine (List.map_congr_left fun l hl => ?_).trans (List.map_id _)
    rw [Function.comp_apply, trim_printed, (hlines l hl).1]
    rfl
  refine ⟨((after.takeWhile fun l => !l.endsHeader).filter fun l => !l.isEmpty).map Line.trim, ?_, ?_⟩
  · rw [headerOf, printed, List.takeWhile_append_of_pos own, List.filter_append, kept, Block.ofLines, List.map_append, same]
  · intro c hc
    obtain ⟨l, hl, rfl⟩ := List.mem_map.mp hc
    obtain ⟨hl, he⟩ := List.mem_filter.mp hl
    have silent : codeLines (after.takeWhile fun l => !l.endsHeader) = [] := by
      have codes : codeLines after = codeLines (rest.flatMap Block.lines) := by
        rw [hafter, codeLines_flatMap, codeLines_flatMap]
        exact congrArg (List.flatMap · rest) (funext (Block.codeLines_printed banners))
      rw [codeLines_takeWhile marks_endsHeader, codes, hstart.takeWhile]
    have hno : l.hasCode = false := by
      rw [Bool.eq_false_iff]
      intro hcode
      have : l.trim ∈ codeLines (after.takeWhile fun l => !l.endsHeader) :=
        List.mem_map_of_mem (List.mem_filter.mpr ⟨hl, hcode⟩)
      rw [silent] at this
      cases this
    obtain ⟨hb, b, hb', rfl⟩ := mem_flatMap_printed hcode ((List.takeWhile_prefix _).subset hl) hno (by simpa using he)
    refine ⟨hb, b, hb', ?_⟩
    cases b.kind <;> rfl

/-- Where the lines stand in the order of a valid layout, the text is read back as the
    header, with banners behind it if there are banners, and the blocks of the layout. -/
theorem parse_toText_of_layout (v : y.Valid) (hm : m.blocks = header :: rest) (hkind : header.kind = .header)
    (hlines : ∀ l ∈ header.lines, l.trim = l ∧ l.isEmpty = false) (hheader : codeLines header.lines = y.header)
    (hcode : ∀ b ∈ rest, ∀ l ∈ b.lines, l.hasCode = true) (hy : codeLines m.lines = y.lines)
    (printable : ∀ l ∈ m.lines, Text.Printable l.text) (banners : Bool) :
    ∃ comments, parse (m.toText banners) = .ok ⟨⟨.header, header.lines ++ comments⟩ :: y.blocks⟩ ∧
      ∀ c ∈ comments, banners = true ∧ ∃ b ∈ rest, c = b.kind.comment := by
  have text := linesOf_toText banners printable
  have unmarked : ∀ l ∈ header.lines, l.endsHeader = false := by
    intro l hl
    rw [Bool.eq_false_iff]
    intro he
    have hmem : l ∈ y.header := by
      rw [← hheader, ← (hlines l hl).1]
      exact List.mem_map_of_mem (List.mem_filter.mpr ⟨hl, marks_endsHeader.code l he⟩)
    rw [v.header l hmem] at he
    cases he
  have hrest : codeLines (rest.flatMap Block.lines) = y.lines.dropWhile fun l => !l.endsHeader := by
    have split : y.header ++ codeLines (rest.flatMap Block.lines) = y.lines := by
      rw [← hheader, ← codeLines_append, ← hy, Module.lines, hm, List.flatMap_cons]
    rw [v.cut_header.2]
    exact List.append_cancel_left split
  obtain ⟨comments, hheader, hcomments⟩ := headerOf_printed banners hm hkind
    (fun l hl => ⟨(hlines l hl).1, (hlines l hl).2, unmarked l hl⟩) hcode (hrest ▸ startsWith_dropWhile)
  refine ⟨comments, ?_, hcomments⟩
  rw [parse_of_layout v (by rw [text, codeLines_printed, hy]), text, hheader]

/-! ## Printing what was read -/

theorem printable_trim_of_mem {s : Text} (hl : l ∈ linesOf s) : Text.Printable l.trim.text := by
  obtain ⟨t, ht, rfl⟩ := List.mem_map.mp hl
  exact Text.printable_trim (Text.newline_not_mem_of_mem_splitLines t ht)

@[simp] theorem kind_headerOf (ls : List Line) : (headerOf ls).kind = .header :=
  rfl

theorem mem_headerOf {ls : List Line} (hl : l ∈ (headerOf ls).lines) :
    ∃ k ∈ ls, l = k.trim ∧ l.trim = l ∧ l.isEmpty = false := by
  obtain ⟨k, hk, rfl⟩ := List.mem_map.mp hl
  obtain ⟨hk, he⟩ := List.mem_filter.mp hk
  exact ⟨k, (List.takeWhile_prefix _).subset hk, rfl, trim_trim k, by rw [isEmpty_trim]; simpa using he⟩

theorem mem_codeLines {ls : List Line} (hl : l ∈ codeLines ls) : ∃ k ∈ ls, l = k.trim := by
  obtain ⟨k, hk, rfl⟩ := List.mem_map.mp hl
  exact ⟨k, (List.mem_filter.mp hk).1, rfl⟩

theorem Layout.kind_of_mem_blocks (hb : b ∈ y.blocks) : b.kind ≠ .header := by
  rcases y.mem_blocks hb with rfl | rfl | rfl | ⟨r, -, rfl⟩
  · simp
  · simp
  · simp
  · rcases kind_blockOf r with hk | hk | hk <;> simp [hk]

/-- What is read from a text can be printed and read again: without banners it is the same
    module, and with them the banners before the first line with code are read as comments
    of the header. The lines with code are the same in both texts. -/
theorem parse_toText {s : Text} (h : parse s = .ok m) :
    parse (m.toText false) = .ok m ∧
      (∃ header rest comments, m.blocks = header :: rest ∧ header.kind = .header ∧ (∀ b ∈ rest, b.kind ≠ .header) ∧
        parse (m.toText true) = .ok ⟨{ header with lines := header.lines ++ comments } :: rest⟩ ∧
        ∀ c ∈ comments, ∃ b ∈ rest, c = b.kind.comment) ∧
      codeLines (linesOf (m.toText true)) = codeLines (linesOf (m.toText false)) := by
  obtain ⟨y, v, rfl, hheader, hsub, -⟩ := exists_layout h
  set header := headerOf (linesOf s) with hdef
  have rest_sub : y.blocks.flatMap Block.lines ⊆ codeLines (linesOf s) := fun l hl =>
    hsub (y.lines_eq ▸ List.mem_append_right _ hl)
  have hcode : ∀ b ∈ y.blocks, ∀ l ∈ b.lines, l.hasCode = true := fun b hb l hl =>
    hasCode_of_mem_codeLines (rest_sub (List.mem_flatMap.mpr ⟨b, hb, hl⟩))
  have hy : codeLines (Module.lines ⟨header :: y.blocks⟩) = y.lines := by
    rw [Module.lines, List.flatMap_cons, codeLines_append, hheader, y.lines_eq]
    exact congrArg _ (codeLines_of_code fun l hl =>
      ⟨hasCode_of_mem_codeLines (rest_sub hl), trim_of_mem_codeLines (rest_sub hl)⟩)
  have printable : ∀ l ∈ Module.lines ⟨header :: y.blocks⟩, Text.Printable l.text := by
    intro l hl
    rcases List.mem_append.mp hl with hl | hl
    · obtain ⟨k, hk, rfl, -⟩ := mem_headerOf hl
      exact printable_trim_of_mem hk
    · obtain ⟨k, hk, rfl⟩ := mem_codeLines (rest_sub hl)
      exact printable_trim_of_mem hk
  have hlines : ∀ l ∈ header.lines, l.trim = l ∧ l.isEmpty = false := fun l hl =>
    (mem_headerOf hl).elim fun _ h => h.2.2
  have reads := parse_toText_of_layout v rfl rfl hlines hheader hcode hy printable
  refine ⟨?_, ?_, ?_⟩
  · obtain ⟨comments, hparse, hcomments⟩ := reads false
    have none : comments = [] := List.eq_nil_iff_forall_not_mem.mpr fun c hc => by cases (hcomments c hc).1
    rw [hparse, none, List.append_nil]
    rfl
  · obtain ⟨comments, hparse, hcomments⟩ := reads true
    exact ⟨header, y.blocks, comments, rfl, rfl, fun b hb => Layout.kind_of_mem_blocks hb, hparse,
      fun c hc => (hcomments c hc).2⟩
  · rw [linesOf_toText true printable, linesOf_toText false printable, codeLines_printed, codeLines_printed]

/-- A source with comments between its regions, no decorations, and a variable between two
    types. -/
def interleavedSource : Text :=
  ("OpCapability Shader\n; types\n  %uint = OpTypeInt 32 0\r\n%v = OpVariable %uint Uniform\n" ++
    "%void = OpTypeVoid\n\n; code\n%main = OpFunction %void None %fn\n%l = OpLabel\n\tOpReturn\n" ++
    "OpFunctionEnd").toList

/-- What is read from it: the types before the variable, and no comment but the first. -/
def interleaved : Module where
  blocks :=
    [⟨.header, [⟨"OpCapability Shader".toList⟩, ⟨"; types".toList⟩]⟩,
      ⟨.decorations, []⟩,
      ⟨.definitions, [⟨"%uint = OpTypeInt 32 0".toList⟩, ⟨"%void = OpTypeVoid".toList⟩]⟩,
      ⟨.globalVariables, [⟨"%v = OpVariable %uint Uniform".toList⟩]⟩,
      ⟨.main, [⟨"%main = OpFunction %void None %fn".toList⟩, ⟨"%l = OpLabel".toList⟩, ⟨"OpReturn".toList⟩,
        ⟨"OpFunctionEnd".toList⟩]⟩]

theorem parse_interleavedSource : parse interleavedSource = .ok interleaved := by
  decide +kernel

theorem parse_toText_interleaved : parse interleavedSource = .ok interleaved ∧
    parse (interleaved.toText false) = .ok interleaved ∧
      ∃ header rest comments, interleaved.blocks = header :: rest ∧ header.kind = .header ∧
        (∀ b ∈ rest, b.kind ≠ .header) ∧
        parse (interleaved.toText true) = .ok ⟨{ header with lines := header.lines ++ comments } :: rest⟩ ∧
        ∀ c ∈ comments, ∃ b ∈ rest, c = b.kind.comment :=
  have reads := parse_toText parse_interleavedSource
  ⟨parse_interleavedSource, reads.1, reads.2.1⟩

end Module

end SpirvLink
