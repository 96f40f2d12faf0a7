/-
  SpirvLink.Proofs.Module.Grammar — what the reader accepts, and where each line goes.

  The lines of a text are cut at the first line that ends the header, at the first that ends
  the decorations and at the first that starts a function. These three cuts are always there
  and there is one way to make them (`Regions.cuts_iff`). Before the functions nothing can be
  refused. From there on the lines with code have to be runs that declare a function each
  and close at its end.

  - `parse_exact`: the reader accepts a text just if its functions are such runs, and then the
    blocks are the regions and the runs, in order.
  - A line with code is neither lost nor made up nor changed but at its ends: definitions and
    variables change places and nothing else does (`codeLines_blocks`).
-/

import SpirvLink.Proofs.Module.Regions

namespace SpirvLink

namespace Module

open Line

/-! ## The cuts -/

/-- The lines of a text in the regions of a module. -/
structure Regions where
  header : List Line
  decorations : List Line
  globals : List Line
  functions : List Line

/-- Each region ends right before the first line that ends it. -/
structure Regions.Cuts (g : Regions) (ls : List Line) : Prop where
  joined : ls = g.header ++ (g.decorations ++ (g.globals ++ g.functions))
  header : ∀ l ∈ g.header, l.endsHeader = false
  afterHeader : StartsWith Line.endsHeader (g.decorations ++ (g.globals ++ g.functions))
  decorations : ∀ l ∈ g.decorations, l.endsDecorations = false
  afterDecorations : StartsWith Line.endsDecorations (g.globals ++ g.functions)
  globals : ∀ l ∈ g.globals, l.startsFunction = false
  afterGlobals : StartsWith Line.startsFunction g.functions

namespace Regions

/-- The regions as the reader cuts them. -/
def of (ls : List Line) : Regions where
  header := ls.takeWhile fun l => !l.endsHeader
  decorations := (ls.dropWhile fun l => !l.endsHeader).takeWhile fun l => !l.endsDecorations
  globals := ((ls.dropWhile fun l => !l.endsHeader).dropWhile fun l => !l.endsDecorations).takeWhile fun l =>
    !l.startsFunction
  functions := ((ls.dropWhile fun l => !l.endsHeader).dropWhile fun l => !l.endsDecorations).dropWhile fun l =>
    !l.startsFunction

theorem cuts_of (ls : List Line) : (of ls).Cuts ls := by
  have globals : (of ls).globals ++ (of ls).functions =
      (ls.dropWhile fun l => !l.endsHeader).dropWhile fun l => !l.endsDecorations := List.takeWhile_append_dropWhile
  have decorations : (of ls).decorations ++ ((of ls).globals ++ (of ls).functions) =
      ls.dropWhile fun l => !l.endsHeader := by
    rw [globals]
    exact List.takeWhile_append_dropWhile
  refine ⟨?_, unmarked_takeWhile, ?_, unmarked_takeWhile, ?_, unmarked_takeWhile, startsWith_dropWhile⟩
  · rw [decorations]
    exact List.takeWhile_append_dropWhile.symm
  · rw [decorations]
    exact startsWith_dropWhile
  · rw [globals]
    exact startsWith_dropWhile

/-- There is one way to cut the lines. -/
theorem cuts_iff {g : Regions} {ls : List Line} : g.Cuts ls ↔ g = of ls := by
  refine ⟨fun c => ?_, fun h => h ▸ cuts_of ls⟩
  obtain ⟨header, afterHeader⟩ := cut_eq c.header c.afterHeader
  obtain ⟨decorations, afterDecorations⟩ := cut_eq c.decorations c.afterDecorations
  obtain ⟨globals, afterGlobals⟩ := cut_eq c.globals c.afterGlobals
  rw [c.joined, of]
  simp only [header, afterHeader, decorations, afterDecorations, globals, afterGlobals]

/-- No line before the functions starts one, so they start at the first line that does. -/
theorem functions_of (ls : List Line) : (of ls).functions = ls.dropWhile fun l => !l.startsFunction := by
  have c := cuts_of ls
  have before : ∀ l ∈ (of ls).header ++ ((of ls).decorations ++ (of ls).globals), l.startsFunction = false := by
    intro l hl
    simp only [List.mem_append] at hl
    rcases hl with hl | hl | hl
    · exact (Bool.or_eq_false_iff.mp (Bool.or_eq_false_iff.mp (c.header l hl)).2).2
    · exact (Bool.or_eq_false_iff.mp (c.decorations l hl)).2
    · exact c.globals l hl
  have joined : (of ls).header ++ ((of ls).decorations ++ (of ls).globals) ++ (of ls).functions = ls := by
    simpa using c.joined.symm
  have cut := (cut_eq before c.afterGlobals).2
  rw [joined] at cut
  exact cut.symm

/-! ## The blocks before the functions -/

/-- The lines with code that are no definitions. -/
def others (g : Regions) : List Line :=
  (codeLines g.globals).filter fun l => !l.isTypeOrConstant

/-- The blocks of the regions before the functions: the header keeps its comments, and there
    is a block of variables just if there are any. -/
def blocks (g : Regions) : List Block :=
  [⟨.header, (g.header.filter fun l => !l.isEmpty).map Line.trim⟩, ⟨.decorations, codeLines g.decorations⟩,
    ⟨.definitions, (codeLines g.globals).filter Line.isTypeOrConstant⟩] ++
    if g.others = [] then [] else [⟨.globalVariables, g.others⟩]

theorem globalsOf_eq_blocks (ls : List Line) : globalsOf ls = (of ls).blocks := by
  rw [globalsOf_eq ls rfl rfl, blocks]
  simp only [List.isEmpty_iff]
  rfl

/-- The blocks have the lines with code of their regions; definitions go before variables. -/
theorem codeLines_blocks (g : Regions) : (codeLines (g.blocks.flatMap Block.lines)).Perm
    (codeLines (g.header ++ (g.decorations ++ g.globals))) := by
  have codeTwice : ∀ ls : List Line, ∀ p : Line → Bool, codeLines ((codeLines ls).filter p) = (codeLines ls).filter p :=
    fun ls p => codeLines_of_code fun l hl =>
      have hmem := List.mem_of_mem_filter hl
      ⟨hasCode_of_mem_codeLines hmem, trim_of_mem_codeLines hmem⟩
  have header : codeLines ((g.header.filter fun l => !l.isEmpty).map Line.trim) = codeLines g.header := by
    rw [codeLines_map_trim, codeLines_nonempty]
  have decorations : codeLines (codeLines g.decorations) = codeLines g.decorations := by
    simpa using codeTwice g.decorations fun _ => true
  have others : codeLines ((if g.others = [] then [] else [(⟨.globalVariables, g.others⟩ : Block)]).flatMap
      Block.lines) = g.others := by
    by_cases none : g.others = []
    · rw [if_pos none, none]
      rfl
    · rw [if_neg none, List.flatMap_singleton]
      exact codeTwice g.globals _
  rw [blocks, List.flatMap_append, codeLines_append, others]
  simp only [List.flatMap_cons, List.flatMap_nil, codeLines_append, header, decorations, codeTwice, List.append_nil,
    List.append_assoc]
  exact (List.filter_append_perm _ _).append_left _ |>.append_left _

end Regions

/-! ## The functions -/

/-- The lines are these runs, each from the declaration of a function to the first end. -/
def AreRuns (ls : List Line) (rs : List (List Line)) : Prop :=
  ls = rs.flatten ∧ ∀ r ∈ rs, Closes r ∧ Declares r

/-- Main by the name it defines, else a function if a line returns, else a declaration. -/
inductive ReadAs (run : List Line) : Block → Prop
  | main (named : run.head?.bind Line.defined? = some mainName) : ReadAs run ⟨.main, run⟩
  | function (named : run.head?.bind Line.defined? ≠ some mainName) (returns : ∃ l ∈ run, l.isReturn = true) :
      ReadAs run ⟨.function, run⟩
  | declaration (named : run.head?.bind Line.defined? ≠ some mainName) (stays : ∀ l ∈ run, l.isReturn = false) :
      ReadAs run ⟨.declaration, run⟩

theorem readAs_blockOf {run : List Line} (h : Declares run) : ReadAs run (blockOf run) := by
  obtain ⟨first, hfirst, starts, named⟩ := h
  obtain ⟨rest, rfl⟩ := List.head?_eq_some_iff.mp hfirst
  obtain ⟨id, hid⟩ := Option.isSome_iff_exists.mp named
  have name : (first :: rest).head?.bind Line.defined? = some id := hid
  rw [blockOf, name, Option.getD_some, runKind, List.tail_cons]
  by_cases main : id = mainName
  · rw [if_pos (beq_iff_eq.mpr main)]
    exact .main (main ▸ name)
  · rw [if_neg fun h => main (beq_iff_eq.mp h)]
    have other : (first :: rest).head?.bind Line.defined? ≠ some mainName := by simpa [hid] using main
    by_cases returns : rest.any Line.isReturn = true
    · obtain ⟨l, hl, hr⟩ := List.any_eq_true.mp returns
      rw [if_pos returns]
      exact .function other ⟨l, List.mem_cons_of_mem _ hl, hr⟩
    · -- The line that starts the run has another opcode, so it is no return either.
      have first_stays : first.isReturn = false := by
        rw [Line.isReturn, beq_iff_eq.mp starts]
        decide
      rw [if_neg returns]
      exact .declaration other (List.forall_mem_cons.mpr ⟨first_stays, by simpa using returns⟩)

/-- The functions are read just if their lines with code are runs, and then as these runs. -/
theorem readFunctions_iff {ls : List Line} {bs : List Block} :
    (readFunctions (ls.filter Line.hasCode)).result = .ok bs ↔
      ∃ rs, AreRuns (codeLines ls) rs ∧ bs = rs.map blockOf := by
  rw [readFunctions_eq_ok]
  exact exists_congr fun rs => and_assoc.symm

theorem forall₂_readAs {rs : List (List Line)} (h : ∀ r ∈ rs, Closes r ∧ Declares r) :
    List.Forall₂ ReadAs rs (rs.map blockOf) :=
  List.forall₂_map_right_iff.mpr (List.forall₂_same.mpr fun r hr => readAs_blockOf (h r hr).2)

/-- The runs have the lines of their region, all of them trimmed lines with code. -/
theorem codeLines_runs {ls : List Line} {rs : List (List Line)} (h : AreRuns (codeLines ls) rs) :
    codeLines ((rs.map blockOf).flatMap Block.lines) = codeLines ls := by
  have lines : (rs.map blockOf).flatMap Block.lines = codeLines ls := by
    rw [List.flatMap_map, h.1]
    exact List.flatMap_id'
  rw [lines]
  exact codeLines_of_code fun l hl => ⟨hasCode_of_mem_codeLines hl, trim_of_mem_codeLines hl⟩

theorem parse_eq_ok_iff {s : Text} {m : Module} : parse s = .ok m ↔
    ∃ rs, AreRuns (codeLines (Regions.of (linesOf s)).functions) rs ∧
      m = ⟨(Regions.of (linesOf s)).blocks ++ rs.map blockOf⟩ := by
  rw [parse_eq_ok, functionLines, ← Regions.functions_of, ← Regions.globalsOf_eq_blocks]
  constructor
  · rintro ⟨bs, hbs, rfl⟩
    obtain ⟨rs, hrs, rfl⟩ := readFunctions_iff.mp hbs
    exact ⟨rs, hrs, rfl⟩
  · rintro ⟨rs, hrs, rfl⟩
    exact ⟨_, readFunctions_iff.mpr ⟨rs, hrs, rfl⟩, rfl⟩

/-- A text is cut into regions in one way. It is accepted just if the lines with code from the
    first function on are runs that declare a function and close, and then the blocks are
    those of the regions before and, in order, one for each run; their lines with code are
    those of the text. -/
theorem parse_exact (s : Text) : ∃ g : Regions, (∀ g', Regions.Cuts g' (linesOf s) ↔ g' = g) ∧
    g.functions = ((linesOf s).dropWhile fun l => !l.startsFunction) ∧
    ((∃ m, parse s = .ok m) ↔ ∃ rs, AreRuns (codeLines g.functions) rs) ∧
    ∀ m, parse s = .ok m →
      (∃ rs bs, AreRuns (codeLines g.functions) rs ∧ List.Forall₂ ReadAs rs bs ∧ m.blocks = g.blocks ++ bs) ∧
      (codeLines m.lines).Perm (codeLines (linesOf s)) := by
  refine ⟨Regions.of (linesOf s), fun _ => Regions.cuts_iff, Regions.functions_of _, ?_, fun m hm => ?_⟩
  · constructor
    · rintro ⟨m, hm⟩
      obtain ⟨rs, hrs, -⟩ := parse_eq_ok_iff.mp hm
      exact ⟨rs, hrs⟩
    · rintro ⟨rs, hrs⟩
      exact ⟨_, parse_eq_ok_iff.mpr ⟨rs, hrs, rfl⟩⟩
  · obtain ⟨rs, hrs, rfl⟩ := parse_eq_ok_iff.mp hm
    refine ⟨⟨rs, _, hrs, forall₂_readAs hrs.2, rfl⟩, ?_⟩
    have lines : codeLines (Module.lines ⟨(Regions.of (linesOf s)).blocks ++ rs.map blockOf⟩) =
        codeLines ((Regions.of (linesOf s)).blocks.flatMap Block.lines) ++
          codeLines (Regions.of (linesOf s)).functions := by
      rw [Module.lines, List.flatMap_append, codeLines_append, codeLines_runs hrs]
    have text : codeLines (linesOf s) = codeLines ((Regions.of (linesOf s)).header ++
        ((Regions.of (linesOf s)).decorations ++ (Regions.of (linesOf s)).globals)) ++
          codeLines (Regions.of (linesOf s)).functions := by
      conv_lhs => rw [(Regions.cuts_of (linesOf s)).joined]
      rw [← codeLines_append, List.append_assoc, List.append_assoc]
    rw [lines, text]
    exact (Regions.codeLines_blocks _).append_right _

end Module

end SpirvLink
