/-
  SpirvLink.Proofs.Link.Reparse — a linked module is printed and read again.

  A reader has put every line of both modules where lines of its block's kind stand
  (`fits_of_parse`). Preparing the kernel keeps the role of each line, joining takes whole
  blocks, inlining and lowering give main lines of which the first declares it and the last
  ends it, and fusing and sweeping take away lines that limit nothing. So the linked module
  is arranged (`arranged_of_steps`), and an arranged module is read back.

  Main must not be renamed on the way. That needs a wrapper in which no call passes main as
  an argument and no function returns it: `linked_renames_main` is a link in which main gets
  another name.

  Results: `linked_reparses`.
-/

import SpirvLink.Proofs.Inlining.MainName
import SpirvLink.Proofs.Link.Preparing
import SpirvLink.Proofs.Link.Shape
import SpirvLink.Proofs.Link.Sifting
import SpirvLink.Proofs.Module.Arranged

namespace SpirvLink

open Line SpirvLink.Module

/-! ## Blocks whose lines are in their place -/

/-- The lines stand where a reader takes them for those of a block of the kind. -/
def BlockKind.Holds (k : BlockKind) (ls : List Line) : Prop :=
  match k with
  | .header => ∀ l ∈ ls, l.endsHeader = false
  | .decorations => ∀ l ∈ ls, l.endsDecorations = false
  | .definitions => ∀ l ∈ ls, l.isTypeOrConstant = true
  | .globalVariables => ∀ l ∈ ls, l.isTypeOrConstant = false ∧ l.startsFunction = false
  | .declaration | .function | .main => Closes ls

/-- The lines are in their place, and each can be printed on a line of its own. -/
structure Block.Fits (b : Block) : Prop where
  place : b.kind.Holds b.lines
  whole : ∀ l ∈ b.lines, l.trim = l ∧ '\n' ∉ l.text

/-- A declaration or main is read back with its kind. -/
def Block.Reads (b : Block) : Prop :=
  b.kind = .declaration ∨ b.kind = .main → Declares b.lines ∧ (blockOf b.lines).kind = b.kind

section Holds

variable {k : BlockKind} {ls ls' : List Line} {b b' : Block}

theorem Block.reads_of_ne (declaration : b.kind ≠ .declaration) (main : b.kind ≠ .main) : b.Reads :=
  fun h => (h.elim declaration main).elim

theorem BlockKind.Holds.of_lines (h : k.Holds ls) (mem : ∀ l' ∈ ls', ∃ l ∈ ls, SameRole l l') (closes : Closes ls → Closes ls') :
    k.Holds ls' := by
  cases k
  case header =>
    intro l' hl'
    obtain ⟨l, hl, role⟩ := mem l' hl'
    rw [role.endsHeader, h l hl]
  case decorations =>
    intro l' hl'
    obtain ⟨l, hl, role⟩ := mem l' hl'
    rw [role.endsDecorations, h l hl]
  case definitions =>
    intro l' hl'
    obtain ⟨l, hl, role⟩ := mem l' hl'
    rw [role.typed, h l hl]
  case globalVariables =>
    intro l' hl'
    obtain ⟨l, hl, role⟩ := mem l' hl'
    rw [role.typed, role.startsFunction]
    exact h l hl
  all_goals exact closes h

theorem Block.Sifted.fits (h : Block.Sifted b b') (fits : b.Fits) : b'.Fits := by
  refine ⟨?_, fun l' hl' => ?_⟩
  · rw [h.kind]
    refine fits.place.of_lines (fun l' hl' => ?_) fun closes => closes.sifted h.lines
    exact (h.lines.mem hl').imp fun l hl => ⟨hl.1, hl.2.role⟩
  · obtain ⟨l, hl, stays⟩ := h.lines.mem hl'
    exact ⟨stays.trimmed (fits.whole l hl).1, stays.oneLine (fits.whole l hl).2⟩

theorem Block.Sifted.reads (h : Block.Sifted b b') (reads : b.Reads) : b'.Reads := by
  intro hk
  rw [h.kind] at hk
  obtain ⟨declares, kind⟩ := reads hk
  obtain ⟨declares', kind'⟩ := declares.sifted h.lines
  exact ⟨declares', by rw [kind', kind, h.kind]⟩

end Holds

/-! ## Modules that were read -/

section Parsed

variable {s : Text} {m : Module} {b : Block} {l : Line}

theorem mem_linesOf_of_parse (h : parse s = .ok m) (hb : b ∈ m.blocks) (hl : l ∈ b.lines) : ∃ k ∈ linesOf s, l = k.trim := by
  obtain ⟨y, -, rfl, -, hsub, -⟩ := exists_layout h
  rcases List.mem_cons.mp hb with rfl | hb
  · obtain ⟨k, hk, heq, -⟩ := mem_headerOf hl
    exact ⟨k, hk, heq⟩
  · refine mem_codeLines (hsub ?_)
    rw [y.lines_eq]
    exact List.mem_append_right _ (List.mem_flatMap.mpr ⟨b, hb, hl⟩)

theorem reads_blockOf {r : List Line} (declares : Declares r) : (blockOf r).Reads :=
  fun _ => ⟨declares, rfl⟩

theorem holds_blockOf {r : List Line} (closes : Closes r) : (blockOf r).kind.Holds r := by
  rcases kind_blockOf r with hk | hk | hk <;> rw [hk] <;> exact closes

/-- What a reader made has every line in its place. -/
theorem fits_of_parse (h : parse s = .ok m) : ∀ b ∈ m.blocks, b.Fits ∧ b.Reads := by
  intro b hb
  have whole : ∀ l ∈ b.lines, l.trim = l ∧ '\n' ∉ l.text := by
    intro l hl
    obtain ⟨k, hk, rfl⟩ := mem_linesOf_of_parse h hb hl
    exact ⟨trim_trim k, (printable_trim_of_mem hk).1⟩
  obtain ⟨y, v, rfl, hheader, -⟩ := exists_layout h
  rcases List.mem_cons.mp hb with rfl | hb
  · refine ⟨⟨fun l hl => ?_, whole⟩, Block.reads_of_ne (by simp) (by simp)⟩
    rw [Bool.eq_false_iff]
    intro he
    have hmem : l.trim ∈ y.header := hheader ▸ List.mem_map_of_mem (List.mem_filter.mpr ⟨hl, marks_endsHeader.code l he⟩)
    have unmarked := v.header _ hmem
    rw [marks_endsHeader.trim, he] at unmarked
    cases unmarked
  · rcases y.mem_blocks hb with rfl | rfl | rfl | ⟨r, hr, rfl⟩
    · exact ⟨⟨v.decorations, whole⟩, Block.reads_of_ne (by simp) (by simp)⟩
    · exact ⟨⟨v.definitions, whole⟩, Block.reads_of_ne (by simp) (by simp)⟩
    · exact ⟨⟨v.globals, whole⟩, Block.reads_of_ne (by simp) (by simp)⟩
    · obtain ⟨closes, declares⟩ := v.functions r hr
      exact ⟨⟨holds_blockOf closes, whole⟩, reads_blockOf declares⟩

end Parsed

/-! ## Functions that leave the name of main alone -/

/-- What a text says of the name of main: one line defines it, no call passes it and no line
    returns it. -/
structure OneMain (s : Text) : Prop where
  plain : ∀ l ∈ linesOf s, ∀ id ∈ l.ids, Text.IsPlainIdent id
  once : ((linesOf s).countP fun l => l.defined? == some mainName) = 1
  notPassed : ∀ l ∈ linesOf s, mainName ∉ l.arguments
  notReturned : ∀ l ∈ linesOf s, l.hasOpcode Opcode.returnValue = true → l.ids.head? ≠ some mainName

section Functions

variable {s : Text} {m : Module} {b c : Block} {l : Line}

theorem plain_of_parse (h : parse s = .ok m) (plain : ∀ l ∈ linesOf s, ∀ id ∈ l.ids, Text.IsPlainIdent id)
    (hb : b ∈ m.blocks) (hl : l ∈ b.lines) : ∀ id ∈ l.ids, Text.IsPlainIdent id := by
  obtain ⟨k, hk, rfl⟩ := mem_linesOf_of_parse h hb hl
  rw [ids_trim]
  exact plain k hk

theorem harmless_of_parse (h : parse s = .ok m) (one : OneMain s) (hb : b ∈ m.blocks) (hl : l ∈ b.lines)
    (notResult : l.result? ≠ some mainName) : l.Harmless := by
  refine ⟨fun id hid => (plain_of_parse h one.plain hb hl id hid).2.1, ((fits_of_parse h b hb).1.whole l hl).2, ?_, notResult, ?_⟩
  all_goals obtain ⟨k, hk, rfl⟩ := mem_linesOf_of_parse h hb hl
  · rw [arguments_trim]
    exact one.notPassed k hk
  · rw [hasOpcode_trim, ids_trim]
    exact one.notReturned k hk

theorem countP_two_le {α : Type} {p : α → Bool} {rs : List (List α)} {r r' : List α} (hr : r ∈ rs) (hr' : r' ∈ rs)
    (hne : r ≠ r') : r.countP p + r'.countP p ≤ rs.flatten.countP p := by
  obtain ⟨before, after, rfl⟩ := List.append_of_mem hr'
  rw [List.flatten_append, List.flatten_cons, List.countP_append, List.countP_append]
  have le : ∀ {ss : List (List α)}, r ∈ ss → r.countP p ≤ ss.flatten.countP p :=
    fun hs => (List.sublist_flatten_of_mem hs).countP_le
  rcases List.mem_append.mp hr with hr | hr
  · have := le hr
    omega
  · have := le ((List.mem_cons.mp hr).resolve_left hne)
    omega

theorem runName_of_reads (reads : b.Reads) (hk : b.kind = .main) : runName b.lines = .ok mainName := by
  obtain ⟨⟨first, hfirst, hstarts, hdefined⟩, kind⟩ := reads (Or.inr hk)
  obtain ⟨name, hname⟩ := Option.isSome_iff_exists.mp hdefined
  refine runName_eq_ok.mpr ⟨first, hfirst, hstarts, ?_⟩
  rw [hk, blockOf, Option.mem_def.mp hfirst, Option.bind_some, hname, Option.getD_some, runKind] at kind
  split at kind
  · next he => rw [hname, eq_of_beq he]
  · split at kind <;> cases kind

theorem two_le_countP {α : Type} {p : α → Bool} {xs : List α} {x y : α} (hx : x ∈ xs) (hy : y ∈ xs) (hpx : p x = true)
    (hpy : p y = true) (hne : x ≠ y) : 2 ≤ xs.countP p := by
  obtain ⟨before, after, rfl⟩ := List.append_of_mem hy
  have other : x ∈ before ++ after := by
    rcases List.mem_append.mp hx with hx | hx
    · exact List.mem_append_left _ hx
    · exact List.mem_append_right _ ((List.mem_cons.mp hx).resolve_left hne)
  have pos : 0 < (before ++ after).countP p := List.countP_pos_iff.mpr ⟨x, other, hpx⟩
  rw [List.countP_append] at pos
  rw [List.countP_append, List.countP_cons_of_pos hpy]
  omega

theorem Layout.exists_run {y : Layout} {header : Block} (hheader : header.kind = .header) (hb : b ∈ header :: y.blocks)
    (hbody : b.hasBody = true) : ∃ r ∈ y.functions, b = blockOf r := by
  rcases List.mem_cons.mp hb with rfl | hb
  · simp [Block.hasBody, hheader] at hbody
  · rcases y.mem_blocks hb with rfl | rfl | rfl | ⟨r, hr, rfl⟩
    · cases hbody
    · cases hbody
    · cases hbody
    · exact ⟨r, hr, rfl⟩

section Once

variable (h : parse s = .ok m) (one : OneMain s) (hc : c ∈ m.blocks) (hck : c.kind = .main)

include h one hc hck

/-- Among the lines of all functions, main's declaration is the only one that defines main. -/
theorem exists_main_run : ∃ runs : List (List Line), c.lines ∈ runs ∧
    (∀ b ∈ m.blocks, b.hasBody = true → b.lines ∈ runs ∧ b = blockOf b.lines) ∧
    (runs.flatten.countP fun l => l.defined? == some mainName) ≤ 1 ∧
    ∃ first ∈ c.lines, first.startsFunction = true ∧ first.defined? = some mainName := by
  obtain ⟨first, hfirst, hstarts, hmain⟩ := runName_eq_ok.mp (runName_of_reads (fits_of_parse h c hc).2 hck)
  obtain ⟨y, -, rfl, -, -, hsub⟩ := exists_layout h
  have runs : ∀ b ∈ headerOf (linesOf s) :: y.blocks, b.hasBody = true → b.lines ∈ y.functions ∧ b = blockOf b.lines := by
    intro b hb hbody
    obtain ⟨r, hr, rfl⟩ := Layout.exists_run rfl hb hbody
    exact ⟨hr, rfl⟩
  have once : (codeLines (linesOf s)).countP (fun l => l.defined? == some mainName) ≤ 1 := by
    have same : ((fun l : Line => l.defined? == some mainName) ∘ Line.trim) = fun l => l.defined? == some mainName :=
      funext fun l => by rw [Function.comp_apply, defined?_trim]
    rw [codeLines, List.countP_map, same, ← one.once]
    exact List.filter_sublist.countP_le
  exact ⟨y.functions, (runs c hc (by simp [Block.hasBody, hck])).1, runs, hsub.countP_le.trans once, first,
    List.mem_of_mem_head? hfirst, hstarts, hmain⟩

/-- A plain function defines no main. -/
theorem undefined_of_parse (hb : b ∈ m.blocks) (hk : b.kind = .function) : ∀ l ∈ b.lines, l.defined? ≠ some mainName := by
  intro l hl hd
  obtain ⟨runs, hcr, hruns, once, first, hfirst, -, hmain⟩ := exists_main_run h one hc hck
  obtain ⟨hbr, hblock⟩ := hruns b hb (by simp [Block.hasBody, hk])
  have hne : b.lines ≠ c.lines := by
    intro he
    rw [he, ← (hruns c hc (by simp [Block.hasBody, hck])).2] at hblock
    rw [hblock, hck] at hk
    cases hk
  have two := countP_two_le (p := fun l : Line => l.defined? == some mainName) hbr hcr hne
  have here : 0 < b.lines.countP fun l => l.defined? == some mainName := List.countP_pos_iff.mpr ⟨l, hl, by simp [hd]⟩
  have there : 0 < c.lines.countP fun l => l.defined? == some mainName := List.countP_pos_iff.mpr ⟨first, hfirst, by simp [hmain]⟩
  omega

/-- In main no call has the name of main for its result. -/
theorem notResult_of_parse : ∀ l ∈ c.lines, l.result? ≠ some mainName := by
  intro l hl he
  obtain ⟨runs, hcr, -, once, first, hfirst, hstarts, hmain⟩ := exists_main_run h one hc hck
  obtain ⟨hcall, hd⟩ := result?_eq_some he
  have hne : l ≠ first := by
    rintro rfl
    have hop : l.opcode? = some Opcode.functionCall := eq_of_beq hcall
    rw [startsFunction, hasOpcode, hop] at hstarts
    exact absurd hstarts (by decide)
  have two := two_le_countP (p := fun l : Line => l.defined? == some mainName) hl hfirst (by simp [hd]) (by simp [hmain]) hne
  have := (List.sublist_flatten_of_mem hcr).countP_le (p := fun l : Line => l.defined? == some mainName)
  omega

end Once

end Functions

/-! ## Both modules of a link -/

section Prepared

variable {s : Text} {kernel : Module} {b : Block}

theorem fits_prepared (h : parse s = .ok kernel) (plain : ∀ l ∈ linesOf s, ∀ id ∈ l.ids, Text.IsPlainIdent id) :
    ∀ b ∈ (Link.prepared .standard kernel).blocks, b.Fits ∧
      ∀ l ∈ b.lines, l.Harmless ∧ l.defined? ≠ some mainName := by
  intro b hb
  rw [Link.prepared_standard] at hb
  obtain ⟨c, hc, rfl⟩ := List.mem_map.mp hb
  have fits := (fits_of_parse h c hc).1
  have prepared : ∀ l ∈ c.lines, Link.Prepared l (Link.prepareLine l) :=
    fun l hl => Link.prepared_prepareLine (plain_of_parse h plain hc hl)
  refine ⟨⟨fits.place.of_lines (fun l' hl' => ?_) fun closes => ?_, fun l' hl' => ?_⟩, fun l' hl' => ?_⟩
  · obtain ⟨l, hl, rfl⟩ := List.mem_map.mp hl'
    exact ⟨l, hl, (prepared l hl).role⟩
  · exact closes.of_roles (List.forall₂_map_right_iff.mpr (List.forall₂_same.mpr fun l hl => (prepared l hl).role))
  · obtain ⟨l, hl, rfl⟩ := List.mem_map.mp hl'
    exact ⟨(prepared l hl).trimmed (fits.whole l hl).1, (prepared l hl).oneLine (fits.whole l hl).2⟩
  · obtain ⟨l, hl, rfl⟩ := List.mem_map.mp hl'
    obtain ⟨absent, undefined⟩ := (prepared l hl).not_main
    exact ⟨.of_absent (prepared l hl).equalsFree ((prepared l hl).oneLine (fits.whole l hl).2) absent undefined, undefined⟩

end Prepared

section Steps

variable {kernelText wrapperText : Text} {kernel wrapper : Module} {out : Linked}

theorem closes_of_fits {b : Block} (fits : b.Fits) (hbody : b.hasBody = true) : Closes b.lines := by
  have place := fits.place
  rcases (Bool.or_eq_true_iff.mp hbody).imp eq_of_beq eq_of_beq with hk | hk <;> rw [hk] at place <;> exact place

/-- No function of either module renames main. -/
theorem spares_of_parse (hkernel : parse kernelText = .ok kernel) (hwrapper : parse wrapperText = .ok wrapper)
    (plain : ∀ l ∈ linesOf kernelText, ∀ id ∈ l.ids, Text.IsPlainIdent id) (one : OneMain wrapperText)
    (hmain : ∃ c ∈ wrapper.blocks, c.kind = .main) {m : Module}
    (hm : m.plainFunctions = wrapper.plainFunctions ++ (Link.prepared .standard kernel).functions) : m.SparesMain := by
  intro f hf
  rw [hm] at hf
  rcases List.mem_append.mp hf with hf | hf
  · have hb := mem_plainFunctions.mp hf
    obtain ⟨c, hc, hck⟩ := hmain
    have undefined := undefined_of_parse hwrapper one hc hck hb rfl
    exact ⟨fun l hl => harmless_of_parse hwrapper one hb hl fun he => undefined l hl (result?_eq_some he).2, undefined,
      closes_of_fits (fits_of_parse hwrapper _ hb).1 rfl⟩
  · obtain ⟨b, hb, hbody, heq⟩ := exists_block hf
    obtain ⟨fits, lines⟩ := fits_prepared hkernel plain b hb
    exact ⟨fun l hl => (lines l (heq ▸ hl)).1, fun l hl => (lines l (heq ▸ hl)).2, heq ▸ closes_of_fits fits hbody⟩

/-- What a wrapper and a kernel are like that leave main its name. -/
structure Readable (kernelText wrapperText : Text) (kernel wrapper : Module) : Prop where
  kernel : parse kernelText = .ok kernel
  wrapper : parse wrapperText = .ok wrapper
  plain : ∀ l ∈ linesOf kernelText, ∀ id ∈ l.ids, Text.IsPlainIdent id
  one : OneMain wrapperText

namespace LinkSteps

variable [KeyOrder] (s : LinkSteps .standard kernel wrapper out) (r : Readable kernelText wrapperText kernel wrapper)

include s r

/-- The kernel's name can take the place of the placeholder. -/
theorem spares_kernel : SparesMain (Text.only Options.standard.placeholder out.stats.kernel) := by
  obtain ⟨header, hheader, -, l, hl, name, hname, heq⟩ := listed_of_kernel s.kernelId
  have hid := Line.isIdent_of_mem_rhsIds hname
  have equalsFree : l.EqualsFree := fun id hid =>
    (plain_of_parse r.wrapper r.one.plain (List.mem_of_find?_eq_some hheader) hl id hid).2.1
  have ident : Text.IsIdent out.stats.kernel := by
    rw [heq]
    have inner : ∀ c ∈ Options.standard.kernelPrefix, Text.endsIdent c = false :=
      Text.forall_of_all (by decide)
    refine ⟨rfl, fun c hc => ?_⟩
    rcases List.mem_append.mp hc with hc | hc
    · rcases List.mem_cons.mp hc with rfl | hc
      · exact Text.endsIdent_sigil
      · exact inner c hc
    · exact hid.2 c ((List.dropWhile_sublist _).subset hc)
  have equals : '=' ∉ out.stats.kernel := by
    rw [heq]
    have inner : '=' ∉ Text.sigil :: Options.standard.kernelPrefix := by decide
    intro hm
    rcases List.mem_append.mp hm with hm | hm
    · exact inner hm
    · exact equalsFree.rhsIds name hname ((List.dropWhile_sublist _).subset hm)
  have other : out.stats.kernel ≠ mainName := by
    have start : Options.standard.kernelPrefix = 'r' :: "s_linker_".toList := by decide
    have main : mainName = Text.sigil :: 'm' :: "ain".toList := by decide
    rw [heq, Options.prefixed, start, main]
    intro he
    exact absurd (List.cons.inj (List.cons.inj he).2).1 (by decide)
  refine ⟨Text.keeps_only (ident.isName equals), fun id hid => Text.only_of ident hid, fun id he => ?_⟩
  unfold Text.only at he
  split at he
  · exact absurd he other
  · exact he

/-- Before and after inlining main is one run of lines that starts with its declaration. -/
theorem mainRun : MainRun s.inlinedLines ∧ ∀ l ∈ s.inlinedLines, l.trim = l := by
  have hb := (joined_of_splice s.splice).main _ (Module.main_mem s.main?) rfl
  obtain ⟨fits, reads⟩ := fits_of_parse r.wrapper _ hb
  have spares := s.spares_kernel r
  have source : MainRun s.main.lines :=
    ⟨fun l hl => harmless_of_parse r.wrapper r.one hb hl (notResult_of_parse r.wrapper r.one hb rfl l hl), fits.place,
      runName_of_reads reads rfl⟩
  refine s.inlining_keeps (P := fun ls => MainRun ls ∧ ∀ l ∈ ls, l.trim = l) ⟨?_, fun l hl => ?_⟩ ?_
  · exact source.renameIds spares (if_neg (by decide))
  · obtain ⟨k, hk, rfl⟩ := List.mem_map.mp hl
    have trimmed : Text.trim k.text = k.text := congrArg Line.text (fits.whole k hk).1
    exact congrArg Line.mk (Text.trim_renameIds (fun id hid => spares.keeps.isWord (Text.isIdent_of_mem hid)) trimmed)
  · rintro m i ls lines functions ⟨hls, -⟩ hpass
    refine ⟨hls.pass (spares_of_parse r.kernel r.wrapper r.plain r.one ⟨_, hb, rfl⟩ functions) hpass, ?_⟩
    obtain ⟨told, -, hpass⟩ := Logged.bind_result_eq_ok.mp hpass
    cases hpass
    exact List.forall_mem_map.mpr fun l _ => trim_trim l

/-- Main is in its place when its instructions are lowered. -/
theorem fits_main : (⟨.main, s.mainLines⟩ : Block).Fits ∧ (⟨.main, s.mainLines⟩ : Block).Reads := by
  obtain ⟨run, trimmed⟩ := s.mainRun r
  have stays : List.Forall₂ Stays s.inlinedLines s.mainLines := stays_of_edits s.lowering
  refine ⟨⟨run.closes.of_roles (stays.imp fun _ _ h => h.role), fun l' hl' => ?_⟩, fun _ => ?_⟩
  · obtain ⟨l, hl, h⟩ := exists_of_forall₂_right stays l' hl'
    exact ⟨h.trimmed (trimmed l hl), h.oneLine (run.harmless l hl).oneLine⟩
  · obtain ⟨first, hfirst, hstarts, hdefined⟩ := runName_eq_ok.mp run.named
    obtain ⟨rest, hlines⟩ := List.head?_eq_some_iff.mp hfirst
    rw [hlines] at stays
    obtain ⟨first', rest', h, -, hmain⟩ := List.forall₂_cons_left_iff.mp stays
    have hd : first'.defined? = some mainName := h.defined.trans hdefined
    rw [hmain]
    refine ⟨⟨first', rfl, by rw [h.role.startsFunction, hstarts], by rw [hd]; rfl⟩, ?_⟩
    simp only [blockOf, List.head?_cons, Option.bind_some, hd, Option.getD_some, runKind, beq_self_eq_true, if_true]

/-- Every block of the joined module but main is in its place. -/
theorem fits_joined {b : Block} (hb : b ∈ s.joined.blocks) (hk : b.kind ≠ .main) :
    b.Fits ∧ (b.kind = .declaration → b.Reads) := by
  obtain ⟨p⟩ := spliced_of_ok s.splice
  have ofWrapper : b ∈ wrapper.blocks → b.Fits ∧ (b.kind = .declaration → b.Reads) :=
    fun hb => (fits_of_parse r.wrapper b hb).imp_right fun reads _ => reads
  have ofKernel : b ∈ (Link.prepared .standard kernel).blocks → b.kind ≠ .declaration →
      b.Fits ∧ (b.kind = .declaration → b.Reads) :=
    fun hb hk => ⟨(fits_prepared r.kernel r.plain b hb).1, fun h => absurd h hk⟩
  have front := p.wrapper
  have kernelFront := p.kernel
  rw [p.blocks] at hb
  simp only [List.mem_cons, List.mem_append] at hb
  rcases hb with rfl | rfl | rfl | rfl | rfl | hb | hb | hb
  · exact ofWrapper (by simp [front])
  · exact ofWrapper (by simp [front])
  · exact ofWrapper (by simp [front])
  · exact ofKernel (by simp [kernelFront]) (by simp [p.definitionsKind.2])
  · exact ofWrapper (by simp [front])
  · exact ofKernel (by simp [kernelFront, hb]) (by simp [p.globalsKind.2 b hb])
  · exact ofWrapper (by simp [front, hb])
  · obtain ⟨c, hc, rfl⟩ := List.mem_map.mp hb
    obtain ⟨hc, hbody⟩ := List.mem_filter.mp hc
    have fits := (fits_prepared r.kernel r.plain c (by simp [kernelFront, hc])).1
    have closes : Closes c.lines := closes_of_fits fits hbody
    exact ⟨⟨closes, fits.whole⟩, fun h => absurd h (by simp)⟩

theorem fits_kept {b : Block} (hb : b ∈ s.kept.blocks) : b.Fits ∧ b.Reads := by
  have hfun := (assembled_of_steps s).elim fun _ h => h.2.1.noFunction b hb
  have hmem : b ∈ s.kept.blocksOf b.kind := mem_blocksOf.mpr ⟨hb, rfl⟩
  rw [s.blocksOf_kept hfun] at hmem
  by_cases hk : b.kind = .main
  · rw [hk, s.blocksOf_main] at hmem
    rw [List.mem_singleton.mp hmem]
    exact s.fits_main r
  · rw [blocksOf_setMain s.main? hk] at hmem
    obtain ⟨fits, reads⟩ := s.fits_joined r (mem_blocksOf.mp hmem).1 hk
    exact ⟨fits, fun h => reads (h.resolve_right hk) h⟩

end LinkSteps

end Steps

/-! ## The linked module -/

theorem sifted_flatMap {bs bs' : List Block} (h : List.Forall₂ Block.Sifted bs bs') :
    Sifted (bs.flatMap Block.lines) (bs'.flatMap Block.lines) := by
  induction h with
  | nil => exact .nil
  | cons hb _ ih => exact hb.lines.append ih

theorem sifted_filter {bs bs' : List Block} (h : List.Forall₂ Block.Sifted bs bs') (k : BlockKind) :
    List.Forall₂ Block.Sifted (bs.filter fun b => b.kind == k) (bs'.filter fun b => b.kind == k) :=
  List.rel_filter (fun b b' (hb : Block.Sifted b b') => by simp only [hb.kind]) h

section Linked

variable {kernelText wrapperText : Text} {kernel wrapper : Module} {o : Options} {out : Linked}

namespace LinkSteps

variable [KeyOrder] (s : LinkSteps o kernel wrapper out)

theorem blocks_eq : out.module.blocks = (s.fusedModule.blocks.map Block.swept).filter fun b => !b.lines.isEmpty := by
  rw [s.module]
  rfl

theorem sifted_blocks {b' : Block} (hb : b' ∈ out.module.blocks) : ∃ b ∈ s.kept.blocks, Block.Sifted b b' := by
  rw [s.blocks_eq] at hb
  exact exists_of_forall₂_right (sifted_of_fuse s.fusing) b' (List.mem_filter.mp hb).1

theorem sifted_lines (k : BlockKind) : Sifted (s.kept.linesOfKind k) (out.module.linesOfKind k) := by
  have same : out.module.linesOfKind k =
      ((s.fusedModule.blocks.map Block.swept).filter fun b => b.kind == k).flatMap Block.lines := by
    rw [linesOfKind, blocksOf, s.blocks_eq, List.filter_comm, flatMap_lines_nonempty]
  rw [same]
  exact sifted_flatMap (sifted_filter (sifted_of_fuse s.fusing) k)

end LinkSteps

theorem LinkSteps.blocksOf_joined [KeyOrder] (s : LinkSteps o kernel wrapper out) {k : BlockKind} (hf : k ≠ .function) (hm : k ≠ .main) :
    s.kept.blocksOf k = s.joined.blocksOf k := by
  rw [s.blocksOf_kept hf, blocksOf_setMain s.main? hm]

theorem LinkSteps.sorted_kept [KeyOrder] (s : LinkSteps o kernel wrapper out) :
    s.kept.blocks.Pairwise fun b c => b.kind.rank ≤ c.kind.rank :=
  (assembled_of_steps s).elim fun _ h => h.2.1.sorted

theorem kind_blockOf_ne (r : List Line) : (blockOf r).kind ≠ .globalVariables := by
  rcases kind_blockOf r with hk | hk | hk <;> simp [hk]

/-- The wrapper's blocks are the regions that the reader found, variables among them. -/
theorem exists_layout_of_spliced {m : Module} (h : parse wrapperText = .ok wrapper) (p : Spliced kernel wrapper m) :
    ∃ y : Layout, y.Valid ∧ p.decorations.lines = y.decorations ∧ p.definitions.lines = y.definitions ∧ y.globals ≠ [] := by
  obtain ⟨y, v, hy, -⟩ := exists_layout h
  have hw := p.wrapper.symm.trans (congrArg Module.blocks hy)
  obtain ⟨-, hw⟩ := List.cons.inj hw
  obtain ⟨hdecorations, hw⟩ := List.cons.inj hw
  obtain ⟨hdefinitions, hw⟩ := List.cons.inj hw
  refine ⟨y, v, by rw [hdecorations], by rw [hdefinitions], fun none => ?_⟩
  rw [none] at hw
  have hmem : p.globals ∈ y.functions.map blockOf := by
    rw [show y.functions.map blockOf = p.globals :: p.rest from hw.symm]
    exact List.mem_cons_self ..
  obtain ⟨run, -, heq⟩ := List.mem_map.mp hmem
  exact kind_blockOf_ne run (heq ▸ p.globalsKind.1)

theorem not_passive_of_decoration {l : Line} (h : l.isDecoration = true) : ¬ l.Passive := by
  intro passive
  obtain ⟨op, hop, hd⟩ := (Option.any_eq_true _ _).mp h
  exact passive op (List.mem_append_left _ (List.contains_iff_mem.mp hd)) hop

namespace LinkSteps

variable [KeyOrder] (s : LinkSteps o kernel wrapper out) (h : parse wrapperText = .ok wrapper)

include s h

/-- The decorations are those of the wrapper, so they start with one if there are any. -/
theorem decorated : StartsWith Line.endsHeader (out.module.linesOfKind .decorations) := by
  obtain ⟨p⟩ := spliced_of_ok s.splice
  obtain ⟨y, v, hdecorations, -⟩ := exists_layout_of_spliced h p
  have sifted := s.sifted_lines .decorations
  rw [linesOfKind, s.blocksOf_joined (by decide) (by decide), p.blocksOf_front.2.1, List.flatMap_singleton, hdecorations] at sifted
  generalize out.module.linesOfKind .decorations = ls' at sifted ⊢
  intro l' hl'
  cases hlines : y.decorations with
  | nil =>
    rw [hlines] at sifted
    cases sifted
    cases hl'
  | cons first rest =>
    have ends : first.endsHeader = true := v.decorated first (hlines ▸ rfl)
    have decoration : first.isDecoration = true := by
      rw [Line.endsHeader, v.decorations first (hlines ▸ List.mem_cons_self ..), Bool.or_false] at ends
      exact ends
    obtain ⟨first', hfirst', stays⟩ := sifted.head? (hlines ▸ rfl) (not_passive_of_decoration decoration)
    cases Option.mem_unique hl' hfirst'
    rw [stays.role.endsHeader, ends]

/-- The wrapper's variables have a definition before them, and the first one stays. -/
theorem typed : out.module.linesOfKind .definitions ≠ [] := by
  obtain ⟨p⟩ := spliced_of_ok s.splice
  obtain ⟨y, v, hdecorations, hdefinitions, hglobals⟩ := exists_layout_of_spliced h p
  obtain ⟨l, ls, hlines⟩ := List.exists_cons_of_ne_nil (v.typed hglobals)
  obtain ⟨header, decorations, definitions⟩ := p.blocksOf_front
  rw [← s.blocksOf_joined (by decide) (by decide)] at header decorations definitions
  obtain ⟨after, hkept⟩ : ∃ after, s.kept.blocks = [p.header, p.decorations] ++ p.definitions :: after := by
    have kept : s.kept.sorted.blocks = s.kept.blocks := congrArg Module.blocks (sorted_eq_self s.sorted_kept)
    have all : s.kept.sorted.blocks = s.kept.blocksOf .header ++ (s.kept.blocksOf .decorations ++
        (s.kept.blocksOf .definitions ++ (BlockKind.all.drop 3).flatMap fun k => s.kept.blocksOf k)) := rfl
    rw [kept, header, decorations, definitions] at all
    exact ⟨_, all⟩
  have headerFits := (fits_of_parse h p.header (by simp [p.wrapper])).1.place
  rw [p.headerKind.1] at headerFits
  have untyped : ∀ c ∈ [p.header, p.decorations], ∀ k ∈ c.lines, k.isTypeOrConstant = false := by
    intro c hc k hk
    have ends : k.endsDecorations = false := by
      simp only [List.mem_cons, List.not_mem_nil, or_false] at hc
      rcases hc with rfl | rfl
      · exact (Bool.or_eq_false_iff.mp (headerFits k hk)).2
      · exact v.decorations k (hdecorations ▸ hk)
    exact (Bool.or_eq_false_iff.mp ends).1
  obtain ⟨b', hb', hkind, l', hl', -⟩ := first_definition_stays s.fusing hkept untyped (hdefinitions.trans hlines)
    (v.definitions l (hlines ▸ List.mem_cons_self ..))
  refine List.ne_nil_of_mem (a := l') (mem_linesOfKind.mpr ⟨b', ?_, hkind.trans p.definitionsKind.1, hl'⟩)
  rw [s.blocks_eq]
  exact List.mem_filter.mpr ⟨hb', by simpa using List.ne_nil_of_mem hl'⟩

end LinkSteps

/-- A linked module has every line in its place. -/
theorem arranged_of_steps [KeyOrder] (s : LinkSteps .standard kernel wrapper out) (r : Readable kernelText wrapperText kernel wrapper) :
    out.module.Arranged := by
  have shaped := shaped_of_steps s
  have fits : ∀ b' ∈ out.module.blocks, b'.Fits ∧ b'.Reads := by
    intro b' hb'
    obtain ⟨b, hb, sifted⟩ := s.sifted_blocks hb'
    exact ⟨sifted.fits (s.fits_kept r hb).1, sifted.reads (s.fits_kept r hb).2⟩
  have place : ∀ {k : BlockKind} {b' : Block}, b' ∈ out.module.blocks → b'.kind = k → k.Holds b'.lines :=
    fun hb' hk => hk ▸ (fits _ hb').1.place
  refine ⟨shaped.sorted, shaped.header, shaped.noFunction, shaped.clean, fun l hl => ?_, fun l hl => ?_, fun l hl => ?_,
    s.decorated r.wrapper, fun l hl => ?_, fun l hl => ?_, fun _ => s.typed r.wrapper, fun b' hb' hk => ?_⟩
  · obtain ⟨b', hb', hl⟩ := List.mem_flatMap.mp hl
    exact (fits b' hb').1.whole l hl
  · obtain ⟨b', hb', hk, hl⟩ := mem_linesOfKind.mp hl
    exact place hb' hk l hl
  · obtain ⟨b', hb', hk, hl⟩ := mem_linesOfKind.mp hl
    exact place hb' hk l hl
  · obtain ⟨b', hb', hk, hl⟩ := mem_linesOfKind.mp hl
    exact place hb' hk l hl
  · obtain ⟨b', hb', hk, hl⟩ := mem_linesOfKind.mp hl
    exact place hb' hk l hl
  · obtain ⟨declares, kind⟩ := (fits b' hb').2 hk
    refine ⟨?_, declares, kind⟩
    rcases hk with hk | hk
    · exact place (k := .declaration) hb' hk
    · exact place (k := .main) hb' hk

/-- Main is there, is the only one, and calls nothing. -/
theorem main_of_steps [KeyOrder] (s : LinkSteps .standard kernel wrapper out) (r : Readable kernelText wrapperText kernel wrapper) :
    ∃ main, out.module.blocksOf .main = [main] ∧ ∀ l ∈ main.lines, l.isCall = false := by
  have sifted := sifted_filter (sifted_of_fuse s.fusing) .main
  have kept := s.blocksOf_kept (k := .main) (by decide)
  rw [s.blocksOf_main, blocksOf] at kept
  rw [kept] at sifted
  obtain ⟨main, rest, hmain, hrest, heq⟩ := List.forall₂_cons_left_iff.mp sifted
  cases hrest
  have closes : Closes main.lines := (s.fits_main r).1.place.sifted hmain.lines
  have nonempty : main.lines ≠ [] := by
    obtain ⟨inner, last, hlines, -⟩ := closes
    rw [hlines]
    exact List.append_ne_nil_of_right_ne_nil _ (List.cons_ne_nil _ _)
  refine ⟨main, ?_, fun l' hl' => ?_⟩
  · rw [blocksOf, s.blocks_eq, List.filter_comm, heq, List.filter_cons_of_pos (by simpa using nonempty), List.filter_nil]
  · obtain ⟨l, hl, stays⟩ := hmain.lines.mem hl'
    rw [stays.role.isCall]
    exact (lowered_of_edits s.lowering s.clean l hl).noCall

end Linked

/-- The text of a linked module can be read again, with banners or without: main is there
    and calls nothing, no plain function is, and each kind of block has the same lines with
    code. The identifiers of both texts are plain; in the wrapper, one line defines the name
    of main, no call passes it and no line returns it. -/
theorem linked_reparses [KeyOrder] {kernelText wrapperText : Text} {out : Linked}
    (h : (linkSources .standard kernelText wrapperText).result = .ok out)
    (plain : ∀ l ∈ linesOf kernelText ++ linesOf wrapperText, ∀ id ∈ l.ids, Text.IsPlainIdent id)
    (once : ((linesOf wrapperText).countP fun l => l.defined? == some mainName) = 1)
    (notPassed : ∀ l ∈ linesOf wrapperText, mainName ∉ l.arguments)
    (notReturned : ∀ l ∈ linesOf wrapperText, l.hasOpcode Opcode.returnValue = true → l.ids.head? ≠ some mainName)
    (banners : Bool) :
    ∃ m, parse (out.module.toText banners) = .ok m ∧
      (∃ main, m.blocksOf .main = [main] ∧ ∀ l ∈ main.lines, l.isCall = false) ∧ m.blocksOf .function = [] ∧
      ∀ k, (m.linesOfKind k).filter Line.hasCode = (out.module.linesOfKind k).filter Line.hasCode := by
  obtain ⟨kernel, hkernel, h⟩ := Logged.bind_result_eq_ok.mp h
  obtain ⟨wrapper, hwrapper, h⟩ := Logged.bind_result_eq_ok.mp h
  obtain ⟨s⟩ := linkModules_eq_ok h
  obtain ⟨plainKernel, plainWrapper⟩ := List.forall_mem_append.mp plain
  have r : Readable kernelText wrapperText kernel wrapper := ⟨hkernel, hwrapper, plainKernel, plainWrapper, once, notPassed, notReturned⟩
  obtain ⟨m, hm, lines, main, function⟩ := (arranged_of_steps s r).exists_parse banners
  exact ⟨m, hm, main ▸ main_of_steps s r, function, lines⟩

/-! ## A main that gets another name -/

/-- A kernel that does nothing. -/
def Link.idleKernel : Text :=
  .ofLines ["OpCapability Kernel", "%void = OpTypeVoid", "%k = OpFunction %void None %fn", "%l = OpLabel", "OpReturn",
    "OpFunctionEnd"]

/-- A wrapper that passes a value to a function. The parameter of this function has the name
    of the result of a call in its body. -/
def Link.passingWrapper (argument : String) : Text :=
  .ofLines ["%RS_KERNELS = OpString \"%k \"", "%void = OpTypeVoid", "%uint = OpTypeInt 32 0",
    "%fn = OpTypeFunction %void", "%v = OpVariable %uint Uniform",
    "%f = OpFunction %uint None %fn", "%p = OpFunctionParameter %uint", "%lf = OpLabel",
    "%p = OpFunctionCall %uint %g", "OpReturnValue %p", "OpFunctionEnd",
    "%g = OpFunction %uint None %fn", "%lg = OpLabel", "%x = OpLoad %uint %v", "OpReturnValue %x", "OpFunctionEnd",
    "%main = OpFunction %void None %fn", "%lm = OpLabel", "%d = OpFunctionCall %void %RS_SPIRV_DUMMY_",
    "%c = OpFunctionCall %uint %f " ++ argument, "OpReturn", "OpFunctionEnd"]

attribute [local instance] KeyOrder.listed

/-- With another argument the linked module is read again. -/
theorem linked_reparses_passing : ∃ out,
    (linkSources .standard Link.idleKernel (Link.passingWrapper "%q")).result = .ok out ∧
      ∃ m, parse (out.module.toText true) = .ok m ∧ (∃ main, m.blocksOf .main = [main] ∧ ∀ l ∈ main.lines, l.isCall = false) ∧
        m.blocksOf .function = [] ∧
        ∀ k, (m.linesOfKind k).filter Line.hasCode = (out.module.linesOfKind k).filter Line.hasCode := by
  have ok : ((linkSources .standard Link.idleKernel (Link.passingWrapper "%q")).result.map fun _ => ()) = .ok () := by
    decide +kernel
  obtain ⟨out, hout, -⟩ := map_eq_ok.mp ok
  exact ⟨out, hout, linked_reparses hout (by decide +kernel) (by decide +kernel) (by decide +kernel) (by decide +kernel) true⟩

/-- When main is passed, the call in the body becomes a call with main for its result, and
    main is renamed to the value of that call. What is read again has no main. -/
theorem linked_renames_main : ∃ out,
    (linkSources .standard Link.idleKernel (Link.passingWrapper "%main")).result = .ok out ∧
      (∀ l ∈ linesOf Link.idleKernel ++ linesOf (Link.passingWrapper "%main"), ∀ id ∈ l.ids, Text.IsPlainIdent id) ∧
      ((linesOf (Link.passingWrapper "%main")).countP fun l => l.defined? == some mainName) = 1 ∧
      ∃ m, parse (out.module.toText false) = .ok m ∧ m.blocksOf .main = [] ∧ m.blocksOf .function ≠ [] := by
  have ok : ((linkSources .standard Link.idleKernel (Link.passingWrapper "%main")).result.map fun out =>
      (parse (out.module.toText false)).map fun m => m.blocks.map Block.kind) =
        .ok (.ok [.header, .decorations, .definitions, .globalVariables, .function]) := by
    decide +kernel
  obtain ⟨out, hout, hparse⟩ := map_eq_ok.mp ok
  obtain ⟨m, hm, hkinds⟩ := map_eq_ok.mp hparse
  refine ⟨out, hout, by decide +kernel, by decide +kernel, m, hm, ?_, ?_⟩
  · refine List.eq_nil_iff_forall_not_mem.mpr fun b hb => ?_
    have hmem : b.kind ∈ m.blocks.map Block.kind := List.mem_map_of_mem (mem_blocksOf.mp hb).1
    rw [hkinds, (mem_blocksOf.mp hb).2] at hmem
    exact absurd hmem (by decide)
  · have hmem : BlockKind.function ∈ m.blocks.map Block.kind := by
      rw [hkinds]
      decide
    obtain ⟨b, hb, hk⟩ := List.mem_map.mp hmem
    exact List.ne_nil_of_mem (mem_blocksOf.mpr ⟨hb, hk⟩)

end SpirvLink
