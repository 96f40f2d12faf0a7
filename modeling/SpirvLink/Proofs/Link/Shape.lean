/-
  SpirvLink.Proofs.Link.Shape — what every linked module looks like.

  A link is taken apart once (`linkRun_of_ok`), and its steps on main are told by the lines
  that they give it (`linkModules_eq_ok`). Joining gives one header and one main;
  inlining and lowering give main other lines and nothing else; main then calls nothing, so
  all plain functions go; fusing and sweeping leave what is no type and no constant. So the
  header stays for the string that lists the kernels, and main for its declaration.

  Main is only sure to stay if no identifier of a function holds an equals sign:
  `linked_without_main` is a link in which an argument with one turns the declaration of
  main into a type, and the whole of main is fused away.

  Results: `linked_shape`.
-/

import SpirvLink.Link.Basic
import SpirvLink.Proofs.Inlining.Declaration
import SpirvLink.Proofs.Link.Splice
import SpirvLink.Proofs.Link.Sweeping
import SpirvLink.Proofs.Lowering

namespace SpirvLink

variable {o : Options} {kernel wrapper m : Module} {out : Linked}

/-! ## The steps of a link -/

/-- A link gave main of the joined module other lines twice and then swept the module. -/
structure LinkSteps [KeyOrder] (o : Options) (kernel wrapper : Module) (out : Linked) where
  joined : Module
  main : Function
  inlinedLines : List Line
  calls : Nat
  chains : Nat
  kept : Module
  fused : Nat
  fusedModule : Module
  valid : o.fault? = none
  kernelId : Link.resolveKernel o wrapper = .ok out.stats.kernel
  splice : splice (Link.prepared o kernel) wrapper = .ok joined
  main? : joined.main? = some main
  inlining : ((Inliner.ofPrefix o.kernelPrefix).inlineMain
    (joined.setMain (main.lines.map (Line.replaceId o.placeholder out.stats.kernel)))).replaced = .ok calls
  inlinedModule : ((Inliner.ofPrefix o.kernelPrefix).inlineMain
    (joined.setMain (main.lines.map (Line.replaceId o.placeholder out.stats.kernel)))).module = joined.setMain inlinedLines
  clean : ∀ l ∈ inlinedLines, l.isCall = false
  lowering : (Line.dropElements inlinedLines).2.result = .ok chains
  removing : (joined.setMain ((Line.dropElements inlinedLines).1.map Line.defineLanes)).sorted.removeUnused.result =
    .ok (out.stats.removedFunctions, kept)
  fusing : kept.fuse.result = .ok (fused, fusedModule)
  module : out.module = fusedModule.swept
  blocks : out.stats.blocks = out.module.blocks.length
  lines : out.stats.lines = out.module.lineCount

namespace Link

theorem patch_eq_ok_iff {id : Text} {m' : Module} : (patch o id m).result = .ok m' ↔ ∃ main, m.main? = some main ∧
    Line.total (Line.countId o.placeholder) main.lines ≠ 0 ∧ m' = m.setMain (main.lines.map (Line.replaceId o.placeholder id)) := by
  unfold patch
  cases m.main? with
  | none => exact ⟨fun h => (by cases h), fun ⟨_, h, _⟩ => (by cases h)⟩
  | some main =>
    by_cases hcount : Line.total (Line.countId o.placeholder) main.lines = 0
    · simp only [if_pos hcount]
      constructor
      · intro h
        obtain ⟨-, h, -⟩ := Logged.bind_result_eq_ok.mp h
        cases h
      · rintro ⟨_, h, hne, -⟩
        cases h
        exact absurd hcount hne
    · simp only [if_neg hcount]
      constructor
      · intro h
        obtain ⟨-, -, h⟩ := Logged.bind_result_eq_ok.mp h
        cases h
        exact ⟨main, rfl, hcount, rfl⟩
      · rintro ⟨_, h, -, rfl⟩
        cases h
        exact Logged.bind_result_eq_ok.mpr ⟨(), rfl, rfl⟩

theorem patch_eq_ok {id : Text} {m' : Module} (h : (patch o id m).result = .ok m') :
    ∃ main, m.main? = some main ∧ m' = m.setMain (main.lines.map (Line.replaceId o.placeholder id)) := by
  obtain ⟨main, hmain, -, hm'⟩ := patch_eq_ok_iff.mp h
  exact ⟨main, hmain, hm'⟩

theorem inlined_eq_ok [KeyOrder] {m' : Module} {n : Nat} (h : (inlined o m).result = .ok (n, m')) :
    ((Inliner.ofPrefix o.kernelPrefix).inlineMain m).replaced = .ok n ∧
      ((Inliner.ofPrefix o.kernelPrefix).inlineMain m).module = m' := by
  obtain ⟨k, hk, heq⟩ := map_eq_ok.mp h
  cases heq
  exact ⟨hk, rfl⟩

theorem onMain_eq_ok {edit : List Line → List Line × Logged Nat} {m' : Module} {n : Nat}
    (h : (onMain edit m).result = .ok (n, m')) :
    ∃ main, m.main? = some main ∧ (edit main.lines).2.result = .ok n ∧ m' = m.setMain (edit main.lines).1 := by
  unfold onMain at h
  split at h
  · cases h
  · next main hmain =>
    obtain ⟨count, hcount, h⟩ := Logged.bind_result_eq_ok.mp h
    cases h
    exact ⟨main, hmain, hcount, rfl⟩

end Link

/-- What the steps of a link gave, one after the other. -/
structure LinkRun [KeyOrder] (o : Options) (kernel wrapper : Module) (out : Linked) where
  joined : Module
  patched : Module
  inlined : Module
  chained : Module
  lowered : Module
  kept : Module
  fused : Module
  valid : o.fault? = none
  kernelId : Link.resolveKernel o wrapper = .ok out.stats.kernel
  splice : splice (Link.prepared o kernel) wrapper = .ok joined
  patch : (Link.patch o out.stats.kernel joined).result = .ok patched
  inlining : (Link.inlined o patched).result = .ok (out.stats.inlinedCalls, inlined)
  chains : (Link.onMain Line.dropElements inlined).result = .ok (out.stats.accessChainsReplaced, chained)
  lanes : (Link.onMain Line.defineAllLanes chained).result = .ok (out.stats.lanesDefined, lowered)
  removing : lowered.sorted.removeUnused.result = .ok (out.stats.removedFunctions, kept)
  fusing : kept.fuse.result = .ok (out.stats.fusedDefinitions, fused)
  module : out.module = fused.swept
  blocks : out.stats.blocks = out.module.blocks.length
  lines : out.stats.lines = out.module.lineCount
  told : ∀ ev ∈ (Link.inlined o patched).log, ev ∈ (linkModules o kernel wrapper).log

theorem linkRun_of_ok [KeyOrder] (h : (linkModules o kernel wrapper).result = .ok out) : Nonempty (LinkRun o kernel wrapper out) := by
  unfold linkModules at h
  obtain ⟨⟨⟩, hvalid, h⟩ := Logged.bind_result_eq_ok.mp h
  obtain ⟨kernelId, hid, h⟩ := Logged.bind_result_eq_ok.mp h
  obtain ⟨told, htold, h⟩ := Logged.bind_result_eq_ok.mp h
  obtain ⟨moved, hmoved, h⟩ := Logged.bind_result_eq_ok.mp h
  obtain ⟨joined, hsplice, h⟩ := Logged.bind_result_eq_ok.mp h
  obtain ⟨shown, hshown, h⟩ := Logged.bind_result_eq_ok.mp h
  obtain ⟨patched, hpatch, h⟩ := Logged.bind_result_eq_ok.mp h
  obtain ⟨⟨calls, inlined⟩, hinline, h⟩ := Logged.bind_result_eq_ok.mp h
  obtain ⟨⟨chains, chained⟩, hchains, h⟩ := Logged.bind_result_eq_ok.mp h
  obtain ⟨⟨lanes, lowered⟩, hlanes, h⟩ := Logged.bind_result_eq_ok.mp h
  obtain ⟨-, -, h⟩ := Logged.bind_result_eq_ok.mp h
  obtain ⟨⟨removed, kept⟩, hremove, h⟩ := Logged.bind_result_eq_ok.mp h
  obtain ⟨⟨n, fused⟩, hfuse, h⟩ := Logged.bind_result_eq_ok.mp h
  obtain ⟨-, -, h⟩ := Logged.bind_result_eq_ok.mp h
  cases h
  refine ⟨⟨joined, patched, inlined, chained, lowered, kept, fused, Options.validate_eq_ok.mp hvalid, hid, hsplice, hpatch,
    hinline, hchains, hlanes, hremove, hfuse, rfl, rfl, rfl, fun ev hev => ?_⟩⟩
  exact Logged.mem_log_bind_right hvalid (Logged.mem_log_bind_right hid (Logged.mem_log_bind_right htold
    (Logged.mem_log_bind_right hmoved (Logged.mem_log_bind_right hsplice (Logged.mem_log_bind_right hshown
      (Logged.mem_log_bind_right hpatch (Logged.mem_log_bind_left hev)))))))

theorem linkModules_eq_ok [KeyOrder] (h : (linkModules o kernel wrapper).result = .ok out) :
    Nonempty (LinkSteps o kernel wrapper out) := by
  obtain ⟨⟨joined, patched, inlined, chained, lowered, kept, fused, valid, kernelId, splice, hpatch, hinline, hchains, hlanes,
    removing, fusing, module, blocks, lines, -⟩⟩ := linkRun_of_ok h
  -- Every step on main finds the lines that the step before gave it.
  obtain ⟨main, hmain, rfl⟩ := Link.patch_eq_ok hpatch
  have hpatched := Module.main?_setMain hmain (main.lines.map (Line.replaceId o.placeholder out.stats.kernel))
  obtain ⟨hreplaced, hmodule⟩ := Link.inlined_eq_ok hinline
  obtain ⟨last, hlast, clean, -⟩ := inlineMain_keeps (P := fun _ => True) hpatched (fun _ _ _ _ _ => trivial)
    trivial hreplaced
  rw [Module.setMain_setMain] at hlast
  obtain rfl := hlast.symm.trans hmodule
  obtain ⟨inlinedMain, hinlinedMain, hcount, rfl⟩ := Link.onMain_eq_ok hchains
  cases (Module.main?_setMain hmain last).symm.trans hinlinedMain
  rw [Module.setMain_setMain] at hlanes
  obtain ⟨chainedMain, hchainedMain, -, rfl⟩ := Link.onMain_eq_ok hlanes
  cases (Module.main?_setMain hmain _).symm.trans hchainedMain
  rw [Module.setMain_setMain] at removing
  exact ⟨⟨joined, main, last, _, _, kept, _, fused, valid, kernelId, splice, hmain, hreplaced, hlast, clean, hcount, removing,
    fusing, module, blocks, lines⟩⟩

/-! ## From the joined module to the swept one -/

/-- The blocks that are left once all plain functions went: sorted, with one header and one main. -/
structure Assembled (m : Module) (header : Block) (main : List Line) : Prop where
  sorted : m.blocks.Pairwise fun b c => b.kind.rank ≤ c.kind.rank
  headers : (m.blocks.filter fun b => b.kind == .header) = [header]
  mains : (m.blocks.filter fun b => b.kind == .main) = [⟨.main, main⟩]
  noFunction : ∀ b ∈ m.blocks, b.kind ≠ .function

/-- What every linked module looks like. -/
structure Shaped (m : Module) : Prop where
  sorted : m.blocks.Pairwise fun b c => b.kind.rank ≤ c.kind.rank
  header : ∃ header rest, m.blocks = header :: rest ∧ header.kind = .header ∧ ∀ b ∈ rest, b.kind ≠ .header
  mainLast : ∀ before main after, m.blocks = before ++ main :: after → main.kind = .main →
    after = [] ∧ ∀ b ∈ before, b.kind ≠ .main
  noFunction : ∀ b ∈ m.blocks, b.kind ≠ .function
  clean : ∀ b ∈ m.blocks, b.Clean
  lowered : ∀ main, m.main? = some main → ∀ l ∈ main.lines, Line.Lowered l

theorem BlockKind.rank_le_header {k : BlockKind} (h : k.rank ≤ BlockKind.header.rank) : k = .header := by
  revert h
  cases k <;> decide

theorem BlockKind.main_le_rank {k : BlockKind} (h : BlockKind.main.rank ≤ k.rank) : k = .main := by
  revert h
  cases k <;> decide

/-- The lines of main once its instructions are lowered. -/
def LinkSteps.mainLines [KeyOrder] (s : LinkSteps o kernel wrapper out) : List Line :=
  (Line.dropElements s.inlinedLines).1.map Line.defineLanes

theorem LinkSteps.blocksOf_main [KeyOrder] (s : LinkSteps o kernel wrapper out) (lines : List Line) :
    (s.joined.setMain lines).blocksOf .main = [⟨.main, lines⟩] := by
  have one := (joined_of_splice s.splice).oneMain
  obtain ⟨before, after, hm, hbefore, hset⟩ := Module.exists_of_main? s.main?
  rw [hm, List.countP_append, List.countP_cons_of_pos rfl, List.countP_eq_zero.mpr fun b hb => by simp [hbefore b hb],
    Nat.zero_add] at one
  have hafter : ∀ b ∈ after, b.isMain = false := fun b hb => by
    simpa using List.countP_eq_zero.mp (Nat.succ.inj one) b hb
  rw [Module.blocksOf, hset, List.filter_append, List.filter_cons_of_pos rfl,
    List.filter_eq_nil_iff.mpr fun b hb => by simpa [Block.isMain] using hbefore b hb,
    List.filter_eq_nil_iff.mpr fun b hb => by simpa [Block.isMain] using hafter b hb]
  rfl

/-- Removing leaves the sorted module without its plain functions. -/
theorem LinkSteps.kept_eq [KeyOrder] (s : LinkSteps o kernel wrapper out) :
    out.stats.removedFunctions = ((s.joined.setMain s.mainLines).sorted.blocks.countP fun b => b.kind == .function) ∧
      s.kept.blocks = (s.joined.setMain s.mainLines).sorted.blocks.filter fun b => !(b.kind == .function) := by
  refine Module.removeUnused_eq_ok (fun main hmain l hl => ?_) s.removing
  have hb : (⟨.main, main.lines⟩ : Block) ∈ (s.joined.setMain s.mainLines).sorted.blocks.filter fun b => b.kind == .main :=
    List.mem_filter.mpr ⟨Module.main_mem hmain, rfl⟩
  rw [Module.filter_kind_sorted, ← Module.blocksOf, s.blocksOf_main] at hb
  rw [(Block.mk.inj (List.mem_singleton.mp hb)).2] at hl
  exact (Line.lowered_of_edits s.lowering s.clean l hl).noCall

/-- The blocks of the other kinds are those of the joined module, but for the lines of main. -/
theorem LinkSteps.blocksOf_kept [KeyOrder] (s : LinkSteps o kernel wrapper out) {k : BlockKind} (hk : k ≠ .function) :
    s.kept.blocksOf k = (s.joined.setMain s.mainLines).blocksOf k := by
  rw [Module.blocksOf, s.kept_eq.2, List.filter_filter, Module.blocksOf, ← Module.filter_kind_sorted]
  refine List.filter_congr fun b _ => ?_
  cases he : b.kind == k with
  | false => rfl
  | true => simp [eq_of_beq he, hk]

theorem assembled_of_steps [KeyOrder] (s : LinkSteps o kernel wrapper out) : ∃ header,
    wrapper.header? = some header ∧ Assembled s.kept header s.mainLines ∧
      out.stats.removedFunctions =
        (wrapper.blocks.countP fun b => b.kind == .function) + kernel.blocks.countP Block.hasBody := by
  have joined := joined_of_splice s.splice
  obtain ⟨header, rest, hblocks, hheader, hkind, hrest⟩ := joined.header
  obtain ⟨hremoved, hkept⟩ := s.kept_eq
  refine ⟨header, hheader, ⟨?_, ?_, ?_, fun b hb => ?_⟩, ?_⟩
  · rw [hkept]
    exact (Module.sorted_pairwise _).sublist List.filter_sublist
  · rw [← Module.blocksOf, s.blocksOf_kept (by decide), Module.blocksOf_setMain s.main? (by decide), Module.blocksOf, hblocks,
      List.filter_cons_of_pos (by simp [hkind]), List.filter_eq_nil_iff.mpr fun b hb => by simpa using hrest b hb]
  · rw [← Module.blocksOf, s.blocksOf_kept (by decide), s.blocksOf_main]
  · rw [hkept] at hb
    simpa using (List.mem_filter.mp hb).2
  · have bodies : (Link.prepared o kernel).blocks.countP Block.hasBody = kernel.blocks.countP Block.hasBody := by
      rw [Link.prepared, Link.namespaced, Module.moveStorageClass, Module.mapLines, Module.mapBlocks, Module.mapLines,
        Module.mapBlocks, List.countP_map, List.countP_map]
      rfl
    rw [hremoved, List.countP_eq_length_filter, Module.filter_kind_sorted, ← List.length_map (f := fun b =>
      (⟨b.lines⟩ : Function)), ← Module.plainFunctions, Module.plainFunctions_setMain s.main?, joined.functions,
      List.length_append, Module.plainFunctions, List.length_map, ← List.countP_eq_length_filter, Module.functions,
      List.length_filterMap_eq_countP, ← bodies]
    congr 2
    funext b
    unfold Block.function?
    split <;> simp [*]

theorem listed_of_kernel {id : Text} (h : Link.resolveKernel o wrapper = .ok id) :
    ∃ header, wrapper.header? = some header ∧ (∃ l ∈ header.lines, l.opcode? = some Opcode.string) ∧
      ∃ l ∈ header.lines, ∃ name ∈ l.rhsIds, id = o.prefixed name := by
  unfold Link.resolveKernel at h
  split at h
  · cases h
  · next header hheader =>
    refine ⟨header, hheader, ?_⟩
    split at h
    · cases h
    · next name hnames =>
      cases h
      obtain ⟨l, hl, hids⟩ := Option.map_eq_some_iff.mp hnames
      have hfound := List.find?_some hl
      simp only [Bool.and_eq_true] at hfound
      refine ⟨⟨l, List.mem_of_find?_eq_some hl, eq_of_beq hfound.1⟩, l, List.mem_of_find?_eq_some hl, name, ?_, rfl⟩
      rw [hids]
      exact List.mem_singleton.mpr rfl
    · cases h

theorem count_kind_pos {bs : List Block} {b : Block} {k : BlockKind} (hb : b ∈ bs) (hk : b.kind = k) :
    0 < (bs.map Block.kind).count k :=
  List.count_pos_iff.mpr (List.mem_map.mpr ⟨b, hb, hk⟩)

section Swept

variable {m m' : Module} {header : Block} {main : List Line}

theorem Assembled.isHeader (a : Assembled m header main) : header ∈ m.blocks ∧ header.kind = .header := by
  have hmem : header ∈ m.blocks.filter fun b => b.kind == .header := by
    rw [a.headers]
    exact List.mem_singleton.mpr rfl
  exact ⟨(List.mem_filter.mp hmem).1, by simpa using (List.mem_filter.mp hmem).2⟩

theorem Assembled.eq_main (a : Assembled m header main) {b : Block} (hb : b ∈ m.blocks) (hk : b.kind = .main) :
    b = ⟨.main, main⟩ := by
  have hmem : b ∈ m.blocks.filter fun b => b.kind == .main := List.mem_filter.mpr ⟨hb, by simp [hk]⟩
  rw [a.mains] at hmem
  exact List.mem_singleton.mp hmem

theorem Swept.sorted (s : Swept m m') (sorted : m.blocks.Pairwise fun b c => b.kind.rank ≤ c.kind.rank) :
    m'.blocks.Pairwise fun b c => b.kind.rank ≤ c.kind.rank := by
  have kinds : (m.blocks.map Block.kind).Pairwise fun j k => j.rank ≤ k.rank := List.pairwise_map.mpr sorted
  exact (List.pairwise_map (f := Block.kind) (R := fun j k => j.rank ≤ k.rank)).mp (kinds.sublist s.kinds)

theorem Swept.count_le (s : Swept m m') (k : BlockKind) :
    (m'.blocks.map Block.kind).count k ≤ (m.blocks.filter fun b => b.kind == k).length := by
  refine Nat.le_trans (s.kinds.count_le k) (Nat.le_of_eq ?_)
  rw [← List.countP_eq_length_filter, List.count, List.countP_map]
  rfl

/-- The header is still there, comes first and is the only one. -/
theorem header_of_swept (a : Assembled m header main) (s : Swept m m')
    (listed : ∃ l ∈ header.lines, l.opcode? = some Opcode.string) :
    ∃ first rest, m'.blocks = first :: rest ∧ first.kind = .header ∧ ∀ b ∈ rest, b.kind ≠ .header := by
  obtain ⟨isBlock, isHeader⟩ := a.isHeader
  obtain ⟨h, hh, hk⟩ := s.kept header isBlock Opcode.string (by decide) (by decide) listed
  rw [isHeader] at hk
  have sorted := s.sorted a.sorted
  have count := s.count_le .header
  rw [a.headers] at count
  cases hblocks : m'.blocks with
  | nil =>
    rw [hblocks] at hh
    cases hh
  | cons first rest =>
    rw [hblocks] at hh sorted count
    have hfirst : first.kind = .header := by
      rcases List.mem_cons.mp hh with rfl | hh
      · exact hk
      · exact BlockKind.rank_le_header (hk ▸ (List.pairwise_cons.mp sorted).1 h hh)
    refine ⟨first, rest, rfl, hfirst, fun b hb hbk => ?_⟩
    rw [List.map_cons, hfirst, List.count_cons_self] at count
    have := count_kind_pos hb hbk
    simp only [List.length_singleton] at count
    omega

/-- Main, if it is still there, comes last and is the only one. -/
theorem main_of_swept (a : Assembled m header main) (s : Swept m m') {before after : List Block} {last : Block}
    (hblocks : m'.blocks = before ++ last :: after) (hk : last.kind = .main) :
    after = [] ∧ ∀ b ∈ before, b.kind ≠ .main := by
  have sorted := s.sorted a.sorted
  have count := s.count_le .main
  rw [a.mains, hblocks, List.map_append, List.map_cons, List.count_append, hk, List.count_cons_self] at count
  rw [hblocks] at sorted
  have late : ∀ b ∈ after, b.kind = .main := by
    intro b hb
    refine BlockKind.main_le_rank (hk ▸ ?_)
    exact (List.pairwise_cons.mp (List.pairwise_append.mp sorted).2.1).1 b hb
  simp only [List.length_singleton] at count
  constructor
  · cases after with
    | nil => rfl
    | cons b after =>
      have hb : b ∈ b :: after := List.mem_cons_self ..
      have := count_kind_pos hb (late b hb)
      omega
  · intro b hb hbk
    have := count_kind_pos hb hbk
    omega

/-- What a lowered line says after a sweep is lowered too. -/
theorem Line.Lowered.of_said {k l : Line} (low : k.Lowered)
    (opcode : ∀ op, Text.sigil ∉ op → l.opcode? = some op → k.opcode? = some op)
    (operand : ∀ t, Text.sigil ∉ t → t ∈ l.operands → t ∈ k.operands) : l.Lowered := by
  have isNot : ∀ {op}, Text.sigil ∉ op → k.hasOpcode op = false → l.hasOpcode op = false := by
    intro op hop hno
    cases hl : l.hasOpcode op with
    | false => rfl
    | true =>
      rw [Line.hasOpcode, opcode op hop (eq_of_beq hl), beq_self_eq_true] at hno
      cases hno
  refine ⟨isNot (by decide) low.noCall, isNot (by decide) low.noPtrChain, fun hop hm => ?_⟩
  refine low.defined ?_ (operand _ (by decide) hm)
  rw [Line.hasOpcode, opcode _ (by decide) (eq_of_beq hop), beq_self_eq_true]

theorem shaped_of_swept (a : Assembled m header main) (s : Swept m m')
    (listed : ∃ l ∈ header.lines, l.opcode? = some Opcode.string) (lowered : ∀ l ∈ main, Line.Lowered l) :
    Shaped m' := by
  refine ⟨s.sorted a.sorted, header_of_swept a s listed, fun _ _ _ => main_of_swept a s, fun b hb => ?_,
    fun b hb => (s.left b hb).1, fun f hf l hl => ?_⟩
  · obtain ⟨-, c, hc, left⟩ := s.left b hb
    rw [left.kind]
    exact a.noFunction c hc
  · obtain ⟨-, b, hb, left⟩ := s.left _ (Module.main_mem hf)
    obtain ⟨k, hk, opcode, operand⟩ := left.said l hl
    rw [a.eq_main hb left.kind.symm] at hk
    exact (lowered k hk).of_said opcode operand

end Swept

/-! ## Main stays -/

theorem isName_prefixed {name : Text} (valid : o.fault? = none) (hname : Text.IsIdent name) (h : '=' ∉ o.prefixed name) :
    Text.IsName (o.prefixed name) := by
  refine ⟨rfl, fun c hc => ?_, h⟩
  rcases List.mem_append.mp hc with hc | hc
  · rcases List.mem_cons.mp hc with rfl | hc
    · decide
    · exact (Options.fault?_eq_none.mp valid).noBlank c hc
  · exact hname.not_blank c (List.dropWhile_sublist _ |>.subset hc)

/-- What holds of main with the kernel's name in it, and is kept by every pass, holds of
    main after inlining. -/
theorem LinkSteps.inlining_keeps [KeyOrder] (s : LinkSteps o kernel wrapper out) {P : List Line → Prop}
    (start : P (s.main.lines.map (Line.replaceId o.placeholder out.stats.kernel)))
    (step : ∀ (m : Module) (i : Inliner) ls lines, m.plainFunctions = wrapper.plainFunctions ++ (Link.prepared o kernel).functions →
      P ls → (i.pass m ⟨ls⟩).result = .ok lines → P lines) : P s.inlinedLines := by
  have hinlining := s.inlining
  have hmodule := s.inlinedModule
  generalize s.main.lines.map (Line.replaceId o.placeholder out.stats.kernel) = patched at start hinlining hmodule
  have hpatched := Module.main?_setMain s.main? patched
  have functions := (Module.plainFunctions_setMain s.main? patched).trans (joined_of_splice s.splice).functions
  obtain ⟨last, hlast, -, hP⟩ := inlineMain_keeps hpatched (fun i ls lines => step _ i ls lines functions) start hinlining
  rw [Module.setMain_setMain] at hlast
  have same := Module.main?_setMain s.main? last
  rw [← hlast, hmodule, Module.main?_setMain s.main?] at same
  rwa [Function.mk.inj (Option.some.inj same)]

/-- Where no identifier of a function holds an equals sign, lowered main declares a function. -/
theorem declares_of_steps [KeyOrder] (s : LinkSteps o kernel wrapper out)
    (plain : ∀ f ∈ wrapper.functions ++ (Link.prepared o kernel).functions, ∀ l ∈ f.lines, l.EqualsFree)
    (hid : '=' ∉ out.stats.kernel) : ∃ l ∈ s.mainLines, l.opcode? = some Opcode.function := by
  have joined := joined_of_splice s.splice
  obtain ⟨-, -, -, l, -, name, hname, heq⟩ := listed_of_kernel s.kernelId
  have new : Text.IsName out.stats.kernel := by
    rw [heq] at hid ⊢
    exact isName_prefixed s.valid (Line.isIdent_of_mem_rhsIds hname) hid
  refine Line.exists_opcode_of_edits s.lowering (by decide) (s.inlining_keeps (P := Declared) ?_ ?_).declares
  · constructor
    · intro l hl
      obtain ⟨k, hk, rfl⟩ := List.mem_map.mp hl
      have hb := joined.main _ (Module.main_mem s.main?) rfl
      exact (plain s.main (List.mem_append_left _ (Module.mem_functions hb rfl)) k hk).renameIds (Text.keeps_only new)
    · have hpatched := Module.main?_setMain s.main? (s.main.lines.map (Line.replaceId o.placeholder out.stats.kernel))
      obtain ⟨⟨name, hnamed⟩, -⟩ := readable_of_inlineMain s.inlining _
        (Module.mem_functions (Module.main_mem hpatched) rfl)
      obtain ⟨first, rest, hfirst, -, hop⟩ := Function.name_eq_ok.mp hnamed
      refine ⟨first, ?_, eq_of_beq hop⟩
      rw [show s.main.lines.map (Line.replaceId o.placeholder out.stats.kernel) = first :: rest from hfirst]
      exact List.mem_cons_self ..
  · intro m i ls lines functions hls hpass
    refine Declared.pass (fun f hf => plain f ?_) hls hpass
    rw [functions] at hf
    exact List.mem_append.mpr ((List.mem_append.mp hf).imp_left Module.plain_mem_functions)

/-- What is left after a link has the shape of a linked module. -/
theorem shaped_of_steps [KeyOrder] (s : LinkSteps o kernel wrapper out) : Shaped out.module := by
  obtain ⟨header, hheader, assembled, -⟩ := assembled_of_steps s
  obtain ⟨header', hheader', listed, -⟩ := listed_of_kernel s.kernelId
  cases hheader.symm.trans hheader'
  rw [s.module]
  exact shaped_of_swept assembled (swept_of_fuse s.fusing) listed (Line.lowered_of_edits s.lowering s.clean)

/-- The shape of a linked module, and the figures that tell of it. Main is there if no
    identifier on the lines of functions and no equals sign in the kernel's name could turn
    its declaration into something else. -/
theorem linked_shape [KeyOrder] (h : (linkModules o kernel wrapper).result = .ok out) :
    Shaped out.module ∧
      out.stats.removedFunctions =
        (wrapper.blocks.countP fun b => b.kind == .function) + kernel.blocks.countP Block.hasBody ∧
      out.stats.blocks = out.module.blocks.length ∧ out.stats.lines = out.module.lineCount ∧
      ((∀ f ∈ wrapper.functions ++ (Link.prepared o kernel).functions, ∀ l ∈ f.lines, ∀ id ∈ l.ids, '=' ∉ id) →
        '=' ∉ out.stats.kernel →
        ∃ before main, out.module.blocks = before ++ [main] ∧ main.kind = .main) := by
  obtain ⟨s⟩ := linkModules_eq_ok h
  obtain ⟨_, -, assembled, removed⟩ := assembled_of_steps s
  have swept := swept_of_fuse s.fusing
  rw [← s.module] at swept
  have shaped := shaped_of_steps s
  refine ⟨shaped, removed, s.blocks, s.lines, fun plain hid => ?_⟩
  have hmem : (⟨.main, s.mainLines⟩ : Block) ∈ s.kept.blocks.filter fun b => b.kind == .main := by
    rw [assembled.mains]
    exact List.mem_singleton.mpr rfl
  obtain ⟨main, hmain, hkind⟩ := swept.kept _ (List.mem_filter.mp hmem).1 Opcode.function (by decide) (by decide)
    (declares_of_steps s plain hid)
  obtain ⟨before, after, hblocks⟩ := List.append_of_mem hmain
  obtain ⟨rfl, -⟩ := shaped.mainLast before main after hblocks hkind
  exact ⟨before, main, hblocks, hkind⟩

/-! ## A main that is fused away -/

/-- A kernel whose parameter has the name that the wrapper below gives its main function,
    once it is prefixed. -/
def Link.collidingKernel : Module :=
  ⟨[⟨.header, []⟩, ⟨.decorations, []⟩, ⟨.definitions, []⟩,
    ⟨.function, ["%k = OpFunction %void None %fn", "%m = OpFunctionParameter %t", "%l = OpLabel", "OpReturn",
      "OpFunctionEnd"].map fun s => ⟨s.toList⟩⟩]⟩

/-- A wrapper that calls its kernel with this argument. -/
def Link.collidingWrapper (argument : Text) : Module :=
  ⟨[⟨.header, [⟨"%RS_KERNELS = OpString \"%k \"".toList⟩]⟩, ⟨.decorations, []⟩,
    ⟨.definitions, [⟨"%q = OpTypeA = OpFunction %void None %fn".toList⟩]⟩, ⟨.globalVariables, []⟩,
    ⟨.main, [⟨"%rs_linker_m = OpFunction %void None %fn".toList⟩,
      ⟨"%r = OpFunctionCall %void %RS_SPIRV_DUMMY_ ".toList ++ argument⟩]⟩]⟩

attribute [local instance] KeyOrder.listed

/-- With a plain argument main is renamed and stays. -/
theorem linked_shape_colliding : ∃ out,
    (linkModules .standard Link.collidingKernel (Link.collidingWrapper "%z".toList)).result = .ok out ∧
      Shaped out.module ∧ out.stats.removedFunctions = 1 ∧
      ∃ before main, out.module.blocks = before ++ [main] ∧ main.kind = .main := by
  have ok : ((linkModules .standard Link.collidingKernel (Link.collidingWrapper "%z".toList)).result.map
      fun out => (out.stats.removedFunctions, out.stats.kernel)) = .ok (1, "%rs_linker_k".toList) := by
    decide +kernel
  obtain ⟨out, hout, hstats⟩ := map_eq_ok.mp ok
  have plain : ∀ f ∈ (Link.collidingWrapper "%z".toList).functions ++
      (Link.prepared .standard Link.collidingKernel).functions, ∀ l ∈ f.lines, ∀ id ∈ l.ids, '=' ∉ id := by
    decide +kernel
  obtain ⟨shaped, -, -, -, main⟩ := linked_shape hout
  obtain ⟨removed, name⟩ := Prod.mk.inj hstats
  exact ⟨out, hout, shaped, removed, main plain (by rw [name]; decide)⟩

/-- An argument with an equals sign makes a type of the declaration of main, the wrapper has
    the same type already, and no main is left. -/
theorem linked_without_main : ∃ out,
    (linkModules .standard Link.collidingKernel (Link.collidingWrapper "%z=OpTypeA".toList)).result = .ok out ∧
      ∀ b ∈ out.module.blocks, b.kind ≠ .main := by
  have ok : ((linkModules .standard Link.collidingKernel (Link.collidingWrapper "%z=OpTypeA".toList)).result.map
      fun out => out.module.blocks.map Block.kind) = .ok [.header, .definitions] := by
    decide +kernel
  obtain ⟨out, hout, hkinds⟩ := map_eq_ok.mp ok
  refine ⟨out, hout, fun b hb hk => ?_⟩
  have hmem : b.kind ∈ out.module.blocks.map Block.kind := List.mem_map_of_mem hb
  rw [hkinds, hk] at hmem
  exact absurd hmem (by decide)

end SpirvLink
