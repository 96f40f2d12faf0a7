/-
  SpirvLink.Proofs.Module.Regions — the blocks that are read, seen from the lines with code.

  The reader has no separators: a region ends at the first line whose opcode begins a later
  one. Comments and empty lines end no region and are kept in the header alone, and blanks
  at the ends of a line change no opcode. So all blocks but the header are fixed by the
  trimmed lines with code (`codeLines`), and a `Layout` is a way to divide these: header,
  decorations, definitions, variables, and the runs of lines that are functions. The blocks
  that are read are those of a valid layout (`exists_layout`), and lines that stand in the
  order of a valid layout are read as its blocks (`parse_of_layout`).
-/

import Mathlib.Data.List.TakeWhile
import SpirvLink.Module.Parser
import SpirvLink.Proofs.Line.Reading
import SpirvLink.Proofs.Success
import SpirvLink.Proofs.Text.Lines

namespace SpirvLink

/-! ## Lines that a region ends at -/

namespace Line

/-- The lines with code, without the blanks at their ends. -/
def codeLines (ls : List Line) : List Line :=
  (ls.filter hasCode).map trim

/-- A test that only lines with code pass, trimmed or not. -/
structure Marks (e : Line → Bool) : Prop where
  trim : ∀ l, e l.trim = e l
  code : ∀ l, e l = true → l.hasCode = true

theorem hasCode_of_opcode? {l : Line} {op : Text} (h : l.opcode? = some op) : l.hasCode = true := by
  unfold opcode? at h
  split at h
  · assumption
  · cases h

theorem marks_opcode (p : Text → Bool) : Marks fun l => l.opcode?.any p := by
  refine ⟨fun l => by rw [opcode?_trim], fun l h => ?_⟩
  obtain ⟨op, hop, -⟩ := (Option.any_eq_true _ _).mp h
  exact hasCode_of_opcode? hop

theorem Marks.or {e e' : Line → Bool} (h : Marks e) (h' : Marks e') : Marks fun l => e l || e' l :=
  ⟨fun l => by rw [h.trim, h'.trim], fun l hl => (Bool.or_eq_true_iff.mp hl).elim (h.code l) (h'.code l)⟩

theorem marks_hasOpcode (op : Text) : Marks (hasOpcode op) := by
  have same : hasOpcode op = fun l => l.opcode?.any (· == op) := by
    funext l
    cases h : l.opcode? <;> simp [hasOpcode, h]
  exact same ▸ marks_opcode _

theorem marks_isTypeOrConstant : Marks isTypeOrConstant :=
  marks_opcode _

theorem marks_isReturn : Marks isReturn :=
  marks_opcode _

theorem marks_startsFunction : Marks startsFunction :=
  marks_hasOpcode _

theorem marks_endsDecorations : Marks endsDecorations :=
  marks_isTypeOrConstant.or marks_startsFunction

theorem marks_endsHeader : Marks endsHeader :=
  (marks_opcode Opcode.isDecoration).or marks_endsDecorations

theorem startsFunction_of_typeOrConstant {l : Line} (h : l.isTypeOrConstant = true) : l.startsFunction = false := by
  rw [Bool.eq_false_iff]
  intro hf
  have hop : l.opcode? = some Opcode.function := beq_iff_eq.mp hf
  rw [isTypeOrConstant, hop] at h
  exact absurd h (by decide)

/-! ## Lines with code -/

theorem codeLines_append (ls ls' : List Line) : codeLines (ls ++ ls') = codeLines ls ++ codeLines ls' := by
  simp [codeLines]

section

variable {e : Line → Bool} (he : Marks e) (ls : List Line)

include he

theorem codeLines_takeWhile : codeLines (ls.takeWhile fun l => !e l) = (codeLines ls).takeWhile fun l => !e l := by
  induction ls with
  | nil => rfl
  | cons l ls ih =>
    by_cases hl : e l = true
    · have trimmed : e l.trim = true := by rw [he.trim, hl]
      simp [codeLines, hl, he.code l hl, trimmed]
    · have trimmed : e l.trim = false := by simpa [he.trim] using hl
      by_cases hc : l.hasCode = true
      · simpa [codeLines, hl, hc, trimmed] using ih
      · simpa [codeLines, hl, hc] using ih

theorem codeLines_dropWhile : codeLines (ls.dropWhile fun l => !e l) = (codeLines ls).dropWhile fun l => !e l := by
  have parts : codeLines (ls.takeWhile fun l => !e l) ++ codeLines (ls.dropWhile fun l => !e l) = codeLines ls := by
    rw [← codeLines_append, List.takeWhile_append_dropWhile]
  rw [codeLines_takeWhile he] at parts
  exact List.append_cancel_left (parts.trans List.takeWhile_append_dropWhile.symm)

theorem filter_map_trim : (ls.filter e).map trim = (ls.map trim).filter e := by
  rw [List.filter_map]
  exact congrArg _ (List.filter_congr fun l _ => (he.trim l).symm)

end

theorem hasCode_of_mem_codeLines {ls : List Line} {l : Line} (h : l ∈ codeLines ls) : l.hasCode = true := by
  obtain ⟨l, hl, rfl⟩ := List.mem_map.mp h
  rw [hasCode_trim]
  exact (List.mem_filter.mp hl).2

theorem trim_trim (l : Line) : l.trim.trim = l.trim :=
  congrArg Line.mk (Text.trim_trim l.text)

theorem trim_of_mem_codeLines {ls : List Line} {l : Line} (h : l ∈ codeLines ls) : l.trim = l := by
  obtain ⟨l, -, rfl⟩ := List.mem_map.mp h
  exact trim_trim l

theorem codeLines_map_trim (ls : List Line) : codeLines (ls.map trim) = codeLines ls := by
  rw [codeLines, List.filter_map, List.map_map]
  have code : (hasCode ∘ trim) = hasCode := funext hasCode_trim
  have once : (trim ∘ trim) = trim := funext trim_trim
  rw [code, once, codeLines]

theorem codeLines_filter {p : Line → Bool} (hp : ∀ l, l.hasCode = true → p l = true) (ls : List Line) :
    codeLines (ls.filter p) = codeLines ls := by
  rw [codeLines, List.filter_filter, codeLines]
  refine congrArg _ (List.filter_congr fun l _ => ?_)
  by_cases hl : l.hasCode = true
  · simp [hl, hp l hl]
  · simp [hl]

/-- No line with code is empty. -/
theorem codeLines_nonempty (ls : List Line) : codeLines (ls.filter fun l => !l.isEmpty) = codeLines ls := by
  refine codeLines_filter (fun l hl => ?_) ls
  obtain ⟨u, vs, hw, -⟩ := hasCode_iff.mp hl
  rw [Bool.not_eq_true', Bool.eq_false_iff]
  intro he
  rw [isEmpty_iff.mp he] at hw
  cases hw

/-- Trimmed lines with code are all there is to keep. -/
theorem codeLines_of_code {ls : List Line} (h : ∀ l ∈ ls, l.hasCode = true ∧ l.trim = l) : codeLines ls = ls := by
  rw [codeLines, List.filter_eq_self.mpr fun l hl => (h l hl).1]
  exact (List.map_congr_left fun l hl => (h l hl).2).trans (List.map_id _)

end Line

namespace Module

open Line

/-! ## Runs -/

/-- The run ends at its only `OpFunctionEnd`. -/
def Closes (run : List Line) : Prop :=
  ∃ inner last, run = inner ++ [last] ∧ (∀ l ∈ inner, l.hasOpcode Opcode.functionEnd = false) ∧
    last.hasOpcode Opcode.functionEnd = true

theorem runs_cons (l : Line) (ls : List Line) : runs (l :: ls) =
    if l.hasOpcode Opcode.functionEnd then ([l] :: (runs ls).1, (runs ls).2)
    else
      match (runs ls).1 with
      | [] => ([], l :: (runs ls).2)
      | r :: rs => ((l :: r) :: rs, (runs ls).2) := rfl

theorem runs_append_closes {run : List Line} (h : Closes run) (ls : List Line) :
    runs (run ++ ls) = (run :: (runs ls).1, (runs ls).2) := by
  obtain ⟨inner, last, rfl, hinner, hlast⟩ := h
  induction inner with
  | nil => rw [List.nil_append, List.singleton_append, runs_cons, if_pos hlast]
  | cons l inner ih =>
    have hl := hinner l (List.mem_cons_self ..)
    have ih := ih fun l hl => hinner l (List.mem_cons_of_mem _ hl)
    rw [List.cons_append, List.cons_append, runs_cons, if_neg (by simp [hl]), ih]

/-- Runs that each close are found again in the lines of all of them. -/
theorem runs_flatten : ∀ {rs : List (List Line)}, (∀ r ∈ rs, Closes r) → runs rs.flatten = (rs, [])
  | [], _ => rfl
  | r :: rs, h => by
    rw [List.flatten_cons, runs_append_closes (h r (List.mem_cons_self ..)),
      runs_flatten fun r hr => h r (List.mem_cons_of_mem _ hr)]

/-- The runs and the rest are the lines, and each run closes. -/
theorem runs_spec (ls : List Line) : (runs ls).1.flatten ++ (runs ls).2 = ls ∧ ∀ r ∈ (runs ls).1, Closes r := by
  induction ls with
  | nil => exact ⟨rfl, fun r hr => (by cases hr)⟩
  | cons l ls ih =>
    rw [runs_cons]
    by_cases hl : l.hasOpcode Opcode.functionEnd = true
    · rw [if_pos hl]
      refine ⟨by simp [ih.1], fun r hr => ?_⟩
      rcases List.mem_cons.mp hr with rfl | hr
      · exact ⟨[], l, rfl, fun _ h => (by cases h), hl⟩
      · exact ih.2 r hr
    · rw [if_neg hl]
      cases hr : (runs ls).1 with
      | nil =>
        rw [hr] at ih
        exact ⟨by simpa using ih.1, fun r hr => (by cases hr)⟩
      | cons r rs =>
        rw [hr] at ih
        refine ⟨by simpa using ih.1, fun r' hr' => ?_⟩
        rcases List.mem_cons.mp hr' with rfl | hr'
        · obtain ⟨inner, last, rfl, hinner, hlast⟩ := ih.2 r (List.mem_cons_self ..)
          refine ⟨l :: inner, last, rfl, fun k hk => ?_, hlast⟩
          rcases List.mem_cons.mp hk with rfl | hk
          · simpa using hl
          · exact hinner k hk
        · exact ih.2 r' (List.mem_cons_of_mem _ hr')

theorem runs_map_trim (ls : List Line) :
    runs (ls.map Line.trim) = ((runs ls).1.map (List.map Line.trim), (runs ls).2.map Line.trim) := by
  induction ls with
  | nil => rfl
  | cons l ls ih =>
    rw [List.map_cons, runs_cons, runs_cons, ih, hasOpcode_trim]
    by_cases hl : l.hasOpcode Opcode.functionEnd = true
    · simp [hl]
    · cases hr : (runs ls).1 <;> simp [hl]

/-- The run starts with the declaration of a function. -/
def Declares (run : List Line) : Prop :=
  ∃ first ∈ run.head?, first.startsFunction = true ∧ first.defined?.isSome = true

/-- The block of a run that declares a function. -/
def blockOf (run : List Line) : Block :=
  ⟨runKind ((run.head?.bind Line.defined?).getD []) run, run⟩

theorem kind_blockOf (run : List Line) :
    (blockOf run).kind = .main ∨ (blockOf run).kind = .function ∨ (blockOf run).kind = .declaration := by
  unfold blockOf runKind
  split
  · exact Or.inl rfl
  · split
    · exact Or.inr (Or.inl rfl)
    · exact Or.inr (Or.inr rfl)

theorem runName_eq_ok {run : List Line} {name : Text} : runName run = .ok name ↔
    ∃ first ∈ run.head?, first.startsFunction = true ∧ first.defined? = some name := by
  cases run with
  | nil => simp [runName]
  | cons first rest =>
    cases hd : first.defined? with
    | none => simp [runName, hd]
    | some id => cases hf : first.startsFunction <;> simp [runName, hd, hf]

theorem runKind_trim (name : Text) (run : List Line) : runKind name (run.map Line.trim) = runKind name run := by
  have returns : (run.map Line.trim).tail.any Line.isReturn = run.tail.any Line.isReturn := by
    rw [← List.map_tail, List.any_map]
    exact congrArg (List.any run.tail) (funext marks_isReturn.trim)
  rw [runKind, runKind, returns]

theorem readRun_eq_ok {run : List Line} {b : Block} : (readRun run).result = .ok b ↔
    Declares (run.map Line.trim) ∧ b = blockOf (run.map Line.trim) := by
  have read : (readRun run).result = .ok b ↔ ∃ name, runName run = .ok name ∧ b = .ofLines (runKind name run) run := by
    rw [readRun, Logged.bind_result_eq_ok]
    refine exists_congr fun name => and_congr_right fun _ => ?_
    rw [Logged.bind_result_eq_ok]
    exact ⟨fun ⟨_, _, h⟩ => (Except.ok.inj h).symm, fun h => ⟨(), rfl, h ▸ rfl⟩⟩
  rw [read]
  cases run with
  | nil => simp [runName, Declares]
  | cons first rest =>
    have starts : first.trim.startsFunction = first.startsFunction := marks_startsFunction.trim first
    have block : ∀ name, first.defined? = some name →
        blockOf ((first :: rest).map Line.trim) = .ofLines (runKind name (first :: rest)) (first :: rest) := by
      intro name hd
      rw [blockOf, List.map_cons, List.head?_cons, Option.bind_some, defined?_trim, hd, Option.getD_some,
        ← List.map_cons, runKind_trim]
      rfl
    constructor
    · rintro ⟨name, hname, rfl⟩
      obtain ⟨_, hl, hs, hd⟩ := runName_eq_ok.mp hname
      cases hl
      exact ⟨⟨_, rfl, by rw [starts, hs], by rw [defined?_trim, hd]; rfl⟩, (block name hd).symm⟩
    · rintro ⟨⟨_, hl, hs, hd⟩, rfl⟩
      cases hl
      rw [defined?_trim] at hd
      obtain ⟨name, hd⟩ := Option.isSome_iff_exists.mp hd
      exact ⟨name, runName_eq_ok.mpr ⟨first, rfl, by rw [← starts, hs], hd⟩, block name hd⟩

theorem readRest_eq_ok {rest : List Line} : readRest rest = .ok () ↔ rest = [] := by
  cases rest with
  | nil => simp [readRest]
  | cons l ls =>
    refine ⟨fun h => ?_, fun h => (by cases h)⟩
    obtain ⟨_, -, h⟩ := bind_eq_ok.mp h
    cases h

/-- The functions are read when the trimmed lines are runs that close and declare. -/
theorem readFunctions_eq_ok {ls : List Line} {bs : List Block} : (readFunctions ls).result = .ok bs ↔
    ∃ rs : List (List Line), ls.map Line.trim = rs.flatten ∧ (∀ r ∈ rs, Closes r ∧ Declares r) ∧ bs = rs.map blockOf := by
  have read : (readFunctions ls).result = .ok bs ↔
      List.Forall₂ (fun r b => (readRun r).result = .ok b) (runs ls).1 bs ∧ (runs ls).2 = [] := by
    rw [readFunctions, Logged.bind_result_eq_ok]
    constructor
    · rintro ⟨bs', hbs, h⟩
      obtain ⟨_, hrest, h⟩ := Logged.bind_result_eq_ok.mp h
      cases h
      exact ⟨mapM_eq_ok.mp (Logged.result_mapM readRun _ ▸ hbs), readRest_eq_ok.mp hrest⟩
    · rintro ⟨hbs, hrest⟩
      refine ⟨bs, Logged.result_mapM readRun _ ▸ mapM_eq_ok.mpr hbs, Logged.bind_result_eq_ok.mpr ⟨(), ?_, rfl⟩⟩
      exact readRest_eq_ok.mpr hrest
  rw [read]
  have trimmed := runs_map_trim ls
  obtain ⟨joined, closed⟩ := runs_spec (ls.map Line.trim)
  rw [trimmed] at joined closed
  constructor
  · rintro ⟨hbs, hrest⟩
    refine ⟨(runs ls).1.map (List.map Line.trim), by simpa [hrest] using joined.symm, fun r hr => ⟨closed r hr, ?_⟩, ?_⟩
    · obtain ⟨run, hrun, rfl⟩ := List.mem_map.mp hr
      obtain ⟨b, -, hb⟩ := exists_of_forall₂ hbs run hrun
      exact (readRun_eq_ok.mp hb).1
    · rw [List.map_map]
      refine List.forall₂_eq_eq_eq ▸ (List.forall₂_map_right_iff.mpr (hbs.flip.imp ?_))
      exact fun b run hb => (readRun_eq_ok.mp hb).2
  · rintro ⟨rs, hls, hrs, rfl⟩
    rw [hls, runs_flatten fun r hr => (hrs r hr).1] at trimmed
    obtain ⟨runs_eq, rest_eq⟩ := Prod.mk.inj trimmed
    refine ⟨?_, List.map_eq_nil_iff.mp rest_eq.symm⟩
    rw [runs_eq, List.map_map, List.forall₂_map_right_iff, List.forall₂_same]
    intro run hrun
    refine readRun_eq_ok.mpr ⟨(hrs _ ?_).2, rfl⟩
    rw [runs_eq]
    exact List.mem_map_of_mem hrun

/-! ## Layouts -/

/-- The lines are none, or the first of them is marked. -/
def StartsWith (e : Line → Bool) (ls : List Line) : Prop :=
  ∀ l ∈ ls.head?, e l = true

section

variable {e e' : Line → Bool} {ls ls' : List Line}

theorem StartsWith.append (h : StartsWith e ls) (h' : StartsWith e ls') : StartsWith e (ls ++ ls') := by
  cases ls with
  | nil => exact h'
  | cons l ls => exact h

theorem StartsWith.imp (himp : ∀ l, e l = true → e' l = true) (h : StartsWith e ls) : StartsWith e' ls :=
  fun l hl => himp l (h l hl)

theorem startsWith_of_forall (h : ∀ l ∈ ls, e l = true) : StartsWith e ls :=
  fun l hl => h l (List.mem_of_mem_head? hl)

theorem StartsWith.takeWhile (h : StartsWith e ls) : ls.takeWhile (fun l => !e l) = [] := by
  cases ls with
  | nil => rfl
  | cons l ls => rw [List.takeWhile_cons_of_neg (by simp [h l rfl])]

theorem StartsWith.dropWhile (h : StartsWith e ls) : ls.dropWhile (fun l => !e l) = ls := by
  cases ls with
  | nil => rfl
  | cons l ls => rw [List.dropWhile_cons_of_neg (by simp [h l rfl])]

theorem StartsWith.takeWhile_of (h : StartsWith e ls) (p : Line → Bool) : StartsWith e (ls.takeWhile p) := by
  cases ls with
  | nil => exact h
  | cons l ls =>
    rw [List.takeWhile_cons]
    split
    · exact h
    · exact fun l hl => (by cases hl)

/-- What has no marked line and what starts with one are cut apart. -/
theorem cut_eq (h : ∀ l ∈ ls, e l = false) (h' : StartsWith e ls') :
    (ls ++ ls').takeWhile (fun l => !e l) = ls ∧ (ls ++ ls').dropWhile (fun l => !e l) = ls' := by
  have unmarked : ∀ l ∈ ls, (!e l) = true := fun l hl => by rw [h l hl]; rfl
  rw [List.takeWhile_append_of_pos unmarked, List.dropWhile_append_of_pos unmarked, h'.takeWhile, h'.dropWhile]
  exact ⟨List.append_nil _, rfl⟩

theorem startsWith_dropWhile : StartsWith e (ls.dropWhile fun l => !e l) := by
  intro l hl
  have h := List.head?_dropWhile_not (fun l => !e l) ls
  rw [hl] at h
  simpa using h

theorem unmarked_takeWhile : ∀ l ∈ ls.takeWhile fun l => !e l, e l = false := by
  intro l hl
  simpa using List.mem_takeWhile_imp hl

end

/-- A division of trimmed lines with code into the regions of a module. -/
structure Layout where
  header : List Line
  decorations : List Line
  definitions : List Line
  globals : List Line
  functions : List (List Line)

namespace Layout

variable {y : Layout} {ls : List Line}

def lines (y : Layout) : List Line :=
  y.header ++ (y.decorations ++ (y.definitions ++ y.globals ++ y.functions.flatten))

/-- The blocks after the header. -/
def blocks (y : Layout) : List Block :=
  [⟨.decorations, y.decorations⟩, ⟨.definitions, y.definitions⟩] ++
    (if y.globals.isEmpty then [] else [⟨.globalVariables, y.globals⟩]) ++ y.functions.map blockOf

theorem lines_eq (y : Layout) : y.lines = y.header ++ y.blocks.flatMap Block.lines := by
  have globals : (if y.globals.isEmpty then [] else [(⟨.globalVariables, y.globals⟩ : Block)]).flatMap Block.lines =
      y.globals := by
    cases hg : y.globals <;> simp
  have functions : (y.functions.map blockOf).flatMap Block.lines = y.functions.flatten := by
    rw [List.flatMap_map]
    exact List.flatMap_id'
  rw [lines, blocks, List.flatMap_append, List.flatMap_append, globals, functions]
  simp

/-- A block after the header is one of the regions, or that of a run. -/
theorem mem_blocks {b : Block} (hb : b ∈ y.blocks) : b = ⟨.decorations, y.decorations⟩ ∨ b = ⟨.definitions, y.definitions⟩ ∨
    b = ⟨.globalVariables, y.globals⟩ ∨ ∃ r ∈ y.functions, b = blockOf r := by
  simp only [blocks, List.mem_append, List.mem_cons, List.not_mem_nil, or_false] at hb
  rcases hb with ((hb | hb) | hb) | hb
  · exact Or.inl hb
  · exact Or.inr (Or.inl hb)
  · split at hb
    · cases hb
    · exact Or.inr (Or.inr (Or.inl (List.mem_singleton.mp hb)))
  · obtain ⟨r, hr, rfl⟩ := List.mem_map.mp hb
    exact Or.inr (Or.inr (Or.inr ⟨r, hr, rfl⟩))

/-- Each region starts with a line that ends the regions before it, and has no line that
    begins a later one. Variables begin no region, so they need a definition before them. -/
structure Valid (y : Layout) : Prop where
  header : ∀ l ∈ y.header, l.endsHeader = false
  decorations : ∀ l ∈ y.decorations, l.endsDecorations = false
  decorated : StartsWith Line.endsHeader y.decorations
  definitions : ∀ l ∈ y.definitions, l.isTypeOrConstant = true
  globals : ∀ l ∈ y.globals, l.isTypeOrConstant = false ∧ l.startsFunction = false
  typed : y.globals ≠ [] → y.definitions ≠ []
  functions : ∀ r ∈ y.functions, Closes r ∧ Declares r

namespace Valid

theorem functions_start (v : y.Valid) : StartsWith Line.startsFunction y.functions.flatten := by
  cases hf : y.functions with
  | nil => exact fun l hl => (by cases hl)
  | cons r rs =>
    obtain ⟨first, hfirst, hs, -⟩ := (v.functions r (hf ▸ List.mem_cons_self ..)).2
    obtain ⟨rest, rfl⟩ := List.head?_eq_some_iff.mp hfirst
    intro l hl
    cases hl
    exact hs

theorem definitions_start (v : y.Valid) :
    StartsWith Line.endsDecorations (y.definitions ++ y.globals ++ y.functions.flatten) := by
  refine StartsWith.append ?_ (v.functions_start.imp fun l hl => by simp [Line.endsDecorations, hl])
  have typed : StartsWith Line.endsDecorations y.definitions :=
    startsWith_of_forall fun l hl => by simp [Line.endsDecorations, v.definitions l hl]
  by_cases hg : y.globals = []
  · rw [hg, List.append_nil]
    exact typed
  · obtain ⟨l, ls, hd⟩ := List.exists_cons_of_ne_nil (v.typed hg)
    rw [hd] at typed ⊢
    exact typed

theorem cut_header (v : y.Valid) : y.lines.takeWhile (fun l => !l.endsHeader) = y.header ∧
    y.lines.dropWhile (fun l => !l.endsHeader) =
      y.decorations ++ (y.definitions ++ y.globals ++ y.functions.flatten) :=
  cut_eq v.header (v.decorated.append (v.definitions_start.imp fun l hl => by simp [Line.endsHeader, hl]))

theorem cut_decorations (v : y.Valid) :
    (y.lines.dropWhile fun l => !l.endsHeader).takeWhile (fun l => !l.endsDecorations) = y.decorations ∧
      (y.lines.dropWhile fun l => !l.endsHeader).dropWhile (fun l => !l.endsDecorations) =
        y.definitions ++ y.globals ++ y.functions.flatten := by
  rw [v.cut_header.2]
  exact cut_eq v.decorations v.definitions_start

theorem not_startsFunction (v : y.Valid) : ∀ l ∈ y.definitions ++ y.globals, l.startsFunction = false := by
  intro l hl
  rcases List.mem_append.mp hl with hl | hl
  · exact Line.startsFunction_of_typeOrConstant (v.definitions l hl)
  · exact (v.globals l hl).2

theorem cut_functions (v : y.Valid) : y.lines.dropWhile (fun l => !l.startsFunction) = y.functions.flatten := by
  have before : ∀ l ∈ y.header ++ (y.decorations ++ (y.definitions ++ y.globals)), l.startsFunction = false := by
    intro l hl
    simp only [List.mem_append] at hl
    rcases hl with hl | hl | hl
    · exact (Bool.or_eq_false_iff.mp (Bool.or_eq_false_iff.mp (v.header l hl)).2).2
    · exact (Bool.or_eq_false_iff.mp (v.decorations l hl)).2
    · exact v.not_startsFunction l (List.mem_append.mpr hl)
  have h := (cut_eq before v.functions_start).2
  simpa [lines] using h

end Valid

end Layout

/-! ## Reading a layout -/

open Layout

variable {y : Layout} {ls : List Line} {m : Module}

theorem decorationsOf_eq (ls : List Line) : decorationsOf ls = ⟨.decorations,
    ((codeLines ls).dropWhile fun l => !l.endsHeader).takeWhile fun l => !l.endsDecorations⟩ := by
  rw [← codeLines_dropWhile marks_endsHeader, ← codeLines_takeWhile marks_endsDecorations]
  rfl

theorem map_trim_globalLines (ls : List Line) : (globalLines ls).map Line.trim =
    (((codeLines ls).dropWhile fun l => !l.endsHeader).dropWhile fun l => !l.endsDecorations).takeWhile
      fun l => !l.startsFunction := by
  rw [← codeLines_dropWhile marks_endsHeader, ← codeLines_dropWhile marks_endsDecorations,
    ← codeLines_takeWhile marks_startsFunction]
  rfl

theorem map_trim_functionLines (ls : List Line) :
    (functionLines ls).map Line.trim = (codeLines ls).dropWhile fun l => !l.startsFunction := by
  rw [← codeLines_dropWhile marks_startsFunction]
  rfl

/-- The blocks before the functions, from the lines that are no function's. -/
theorem globalsOf_eq {defs vars : List Line} (ls : List Line)
    (hd : ((globalLines ls).map Line.trim).filter Line.isTypeOrConstant = defs)
    (hv : (((globalLines ls).map Line.trim).filter fun l => !l.isTypeOrConstant) = vars) :
    globalsOf ls = [headerOf ls, decorationsOf ls, ⟨.definitions, defs⟩] ++
      if vars.isEmpty then [] else [⟨.globalVariables, vars⟩] := by
  have others : ((globalLines ls).filter fun l => !l.isTypeOrConstant).map Line.trim = vars := by
    rw [← hv, List.filter_map]
    exact congrArg _ (List.filter_congr fun l _ => by simp [marks_isTypeOrConstant.trim])
  rw [globalsOf, ← hd, ← filter_map_trim marks_isTypeOrConstant]
  simp only [← others, List.isEmpty_map]
  rfl

/-- The lines of a text, as the reader takes them. -/
def linesOf (s : Text) : List Line :=
  (Text.splitLines s).map Line.mk

theorem parse_eq_ok {s : Text} : parse s = .ok m ↔ ∃ bs, (readFunctions (functionLines (linesOf s))).result = .ok bs ∧
    m = ⟨globalsOf (linesOf s) ++ bs⟩ := by
  rw [parse, read, Logged.bind_result_eq_ok]
  exact exists_congr fun bs => and_congr_right fun _ => ⟨fun h => (Except.ok.inj h).symm, fun h => h ▸ rfl⟩

/-- Lines in the order of a valid layout are read as the blocks of the layout. -/
theorem parse_of_layout {s : Text} (v : y.Valid) (h : codeLines (linesOf s) = y.lines) :
    parse s = .ok ⟨headerOf (linesOf s) :: y.blocks⟩ := by
  have cut : (globalLines (linesOf s)).map Line.trim = y.definitions ++ y.globals := by
    rw [map_trim_globalLines, h, v.cut_decorations.2]
    exact (cut_eq v.not_startsFunction v.functions_start).1
  have typed : ∀ l ∈ y.globals, ¬ l.isTypeOrConstant = true := fun l hl => by simp [(v.globals l hl).1]
  have definitions : (y.definitions ++ y.globals).filter Line.isTypeOrConstant = y.definitions := by
    rw [List.filter_append, List.filter_eq_self.mpr v.definitions, List.filter_eq_nil_iff.mpr typed, List.append_nil]
  have globals : ((y.definitions ++ y.globals).filter fun l => !l.isTypeOrConstant) = y.globals := by
    rw [List.filter_append, List.filter_eq_nil_iff.mpr fun l hl => by simp [v.definitions l hl],
      List.filter_eq_self.mpr fun l hl => by simp [(v.globals l hl).1], List.nil_append]
  refine parse_eq_ok.mpr ⟨y.functions.map blockOf, readFunctions_eq_ok.mpr ⟨y.functions, ?_, v.functions, rfl⟩, ?_⟩
  · rw [map_trim_functionLines, h, v.cut_functions]
  · rw [globalsOf_eq _ (cut ▸ definitions) (cut ▸ globals), decorationsOf_eq, h, v.cut_decorations.1]
    simp [Layout.blocks]

theorem codeLines_headerOf (ls : List Line) :
    codeLines (headerOf ls).lines = (codeLines ls).takeWhile fun l => !l.endsHeader := by
  rw [headerOf, Block.ofLines, codeLines_map_trim, codeLines_nonempty, codeLines_takeWhile marks_endsHeader]

/-- The lines between the decorations and the functions. -/
def globalRegion (c : List Line) : List Line :=
  ((c.dropWhile fun l => !l.endsHeader).dropWhile fun l => !l.endsDecorations).takeWhile fun l => !l.startsFunction

/-- The division that the reader makes of the lines with code, given the runs at their end. -/
def Layout.ofCode (c : List Line) (rs : List (List Line)) : Layout where
  header := c.takeWhile fun l => !l.endsHeader
  decorations := (c.dropWhile fun l => !l.endsHeader).takeWhile fun l => !l.endsDecorations
  definitions := (globalRegion c).filter Line.isTypeOrConstant
  globals := (globalRegion c).filter fun l => !l.isTypeOrConstant
  functions := rs

theorem globalRegion_startsWith (c : List Line) : StartsWith Line.isTypeOrConstant (globalRegion c) := by
  intro l hl
  have first : l.endsDecorations = true := startsWith_dropWhile.takeWhile_of _ l hl
  rw [Line.endsDecorations, unmarked_takeWhile l (List.mem_of_mem_head? hl), Bool.or_false] at first
  exact first

theorem Layout.valid_ofCode {c : List Line} {rs : List (List Line)} (h : ∀ r ∈ rs, Closes r ∧ Declares r) :
    (Layout.ofCode c rs).Valid where
  header := unmarked_takeWhile
  decorations := unmarked_takeWhile
  decorated := startsWith_dropWhile.takeWhile_of _
  definitions l hl := (List.mem_filter.mp hl).2
  globals l hl := by
    obtain ⟨hmem, htype⟩ := List.mem_filter.mp hl
    exact ⟨by simpa using htype, unmarked_takeWhile l hmem⟩
  typed hglobals hnone := by
    obtain ⟨l, ls, hregion⟩ := List.exists_cons_of_ne_nil fun he : globalRegion c = [] =>
      hglobals (by simp [Layout.ofCode, he])
    have first := globalRegion_startsWith c l (hregion ▸ rfl)
    exact absurd first (List.filter_eq_nil_iff.mp hnone l (hregion ▸ List.mem_cons_self ..))
  functions := h

theorem mem_lines_ofCode {c : List Line} {rs : List (List Line)} (hrs : rs.flatten ⊆ c) :
    (Layout.ofCode c rs).lines ⊆ c := by
  have rest : globalRegion c ⊆ c := fun l hl =>
    (List.dropWhile_suffix _).subset ((List.dropWhile_suffix _).subset ((List.takeWhile_prefix _).subset hl))
  intro l hl
  simp only [Layout.lines, Layout.ofCode, List.mem_append, List.mem_filter] at hl
  rcases hl with hl | hl | (hl | hl) | hl
  · exact (List.takeWhile_prefix _).subset hl
  · exact (List.dropWhile_suffix _).subset ((List.takeWhile_prefix _).subset hl)
  · exact rest hl.1
  · exact rest hl.1
  · exact hrs hl

/-- What is read is a header and the blocks of a valid layout. -/
theorem exists_layout {s : Text} (h : parse s = .ok m) : ∃ y : Layout, y.Valid ∧
    m = ⟨headerOf (linesOf s) :: y.blocks⟩ ∧ codeLines (headerOf (linesOf s)).lines = y.header ∧
      y.lines ⊆ codeLines (linesOf s) ∧ y.functions.flatten.Sublist (codeLines (linesOf s)) := by
  obtain ⟨bs, hbs, rfl⟩ := parse_eq_ok.mp h
  obtain ⟨rs, hrs, hvalid, rfl⟩ := readFunctions_eq_ok.mp hbs
  have hsub : rs.flatten.Sublist (codeLines (linesOf s)) := by
    rw [← hrs, map_trim_functionLines]
    exact List.dropWhile_sublist _
  refine ⟨.ofCode (codeLines (linesOf s)) rs, Layout.valid_ofCode hvalid, ?_, codeLines_headerOf _,
    mem_lines_ofCode hsub.subset, hsub⟩
  rw [globalsOf_eq _ rfl rfl, map_trim_globalLines, decorationsOf_eq]
  simp [Layout.blocks, Layout.ofCode, globalRegion]

end Module

end SpirvLink
