/-
  SpirvLink.Proofs.Link.References — when a linked module defines all that it refers to.

  A link takes the functions away, and with them what they define; the calls of main and the
  labels and parameters of the functions called go too. It takes away nothing that still
  refers to them, so a name for a function that is inlined ends without a definition
  (`linked_leaves_name`). Where nothing that stays needs what goes (`Module.Detached`), main
  takes over copies that supply themselves, fusion deletes no definition that is needed, and
  every reference of the linked module is defined in it (`linked_definesAll`).
-/

import SpirvLink.Proofs.Fusion.References
import SpirvLink.Proofs.Inlining.Supply
import SpirvLink.Proofs.Link.Shape

namespace SpirvLink

open Line (DefinesAll Narrows)

/-! ## Functions and what stands outside of them -/

namespace Module

variable {m : Module} {l : Line}

/-- The functions and main alone. -/
def bodies (m : Module) : Module :=
  ⟨m.blocks.filter Block.hasBody⟩

/-- The lines outside of functions and main. -/
def outerLines (m : Module) : List Line :=
  (m.blocks.filter fun b => !b.hasBody).flatMap Block.lines

def outerIds (m : Module) : List Text :=
  m.outerLines.filterMap Line.defined?

theorem mem_outerLines : l ∈ m.outerLines ↔ ∃ b ∈ m.blocks, b.hasBody = false ∧ l ∈ b.lines := by
  simp only [outerLines, List.mem_flatMap, List.mem_filter, Bool.not_eq_true', and_assoc]

theorem outerLines_setMain {main : Function} (h : m.main? = some main) (lines : List Line) :
    (m.setMain lines).outerLines = m.outerLines := by
  obtain ⟨before, after, hm, -, hset⟩ := exists_of_main? h
  rw [outerLines, outerLines, hset, hm, List.filter_append, List.filter_append,
    List.filter_cons_of_neg (by simp [Block.hasBody]), List.filter_cons_of_neg (by simp [Block.hasBody])]

/-- What is no line of a plain function stands outside of functions or in main. -/
theorem mem_lines_iff_outer_or_main :
    (∃ b ∈ m.blocks, b.kind ≠ .function ∧ l ∈ b.lines) ↔ l ∈ m.outerLines ∨ l ∈ m.linesOfKind .main := by
  rw [mem_outerLines, mem_linesOfKind]
  constructor
  · rintro ⟨b, hb, hk, hl⟩
    by_cases hmain : b.kind = .main
    · exact Or.inr ⟨b, hb, hmain, hl⟩
    · exact Or.inl ⟨b, hb, by simp [Block.hasBody, hk, hmain], hl⟩
  · rintro (⟨b, hb, hbody, hl⟩ | ⟨b, hb, hmain, hl⟩)
    · refine ⟨b, hb, fun hk => ?_, hl⟩
      rw [Block.hasBody, hk] at hbody
      cases hbody
    · exact ⟨b, hb, by rw [hmain]; decide, hl⟩

theorem functions_bodies (m : Module) : m.bodies.functions = m.functions := by
  rw [functions, functions, bodies, List.filterMap_filter]
  refine List.filterMap_congr fun b _ => ?_
  unfold Block.function?
  split <;> rfl

theorem main?_bodies (m : Module) : m.bodies.main? = m.main? := by
  have main : ∀ b : Block, b.isMain = true → b.hasBody = true := by
    intro b hb
    rw [Block.hasBody, show (b.kind == .main) = true from hb, Bool.or_true]
  rw [main?, main?, bodies, List.find?_filter]
  congr 2
  funext b
  cases hb : b.isMain with
  | false => simp
  | true => simp [main b hb]

theorem resolve_bodies (m : Module) (callee : Text) : Inlining.resolve m.bodies callee = Inlining.resolve m callee := by
  rw [Inlining.resolve, Inlining.resolve, bodies, List.filter_filter]
  congr 1
  refine List.filter_congr fun b _ => ?_
  cases hk : b.kind == .function <;> simp [Block.hasBody, hk]

/-- What is used outside of functions is defined there, or by a line of main that is no call. -/
def OuterSupplied (m : Module) : Prop :=
  ∀ l ∈ m.outerLines, ∀ id ∈ l.references,
    id ∈ m.outerIds ∨ ∃ k ∈ m.linesOfKind .main, k.isCall = false ∧ k.defined? = some id

instance (m : Module) : Decidable m.OuterSupplied :=
  inferInstanceAs (Decidable (∀ _ ∈ _, _))

/-- Nothing that stays in a link needs what goes. The lines of functions and main are well
    spaced, no identifier is defined by two of them or by one and a line outside, and none
    looks like a name in a later copy; no function uses what belongs to another, calls what
    belongs to a function, or passes a result before it has it. What the bodies, the values
    returned and main use, callees and types of calls apart, is defined outside of functions or
    by the lines around it, and not by a call of a function that returns no value. What is
    used outside of functions is defined there, or by a line of main that is no call. -/
structure Detached (m : Module) : Prop where
  tidy : m.bodies.Tidy
  apart : m.bodies.Apart
  arguments : ∀ f ∈ m.functions, ArgumentsReady f.lines
  callees : ∀ f ∈ m.functions, ∀ l ∈ f.lines, ∀ s ∈ l.site?, ¬ m.bodies.IsLocal s.callee
  outside : m.bodies.Outside m.outerIds
  unquoted : ∀ id ∈ m.outerIds, '"' ∉ id
  bodies : ∀ f ∈ m.bodies.plainFunctions, m.bodies.SuppliesBody m.outerIds f
  main : m.bodies.Supplied m.outerIds (m.linesOfKind .main)
  outer : m.OuterSupplied

instance (m : Module) : Decidable m.Detached :=
  decidable_of_iff (m.bodies.Tidy ∧ m.bodies.Apart ∧ (∀ f ∈ m.functions, ArgumentsReady f.lines) ∧
      (∀ f ∈ m.functions, ∀ l ∈ f.lines, ∀ s ∈ l.site?, ¬ m.bodies.IsLocal s.callee) ∧
      m.bodies.Outside m.outerIds ∧ (∀ id ∈ m.outerIds, '"' ∉ id) ∧
      (∀ f ∈ m.bodies.plainFunctions, m.bodies.SuppliesBody m.outerIds f) ∧
      m.bodies.Supplied m.outerIds (m.linesOfKind .main) ∧ m.OuterSupplied)
    ⟨fun ⟨h₁, h₂, h₃, h₄, h₅, h₆, h₇, h₈, h₉⟩ => ⟨h₁, h₂, h₃, h₄, h₅, h₆, h₇, h₈, h₉⟩,
      fun h => ⟨h.tidy, h.apart, h.arguments, h.callees, h.outside, h.unquoted, h.bodies, h.main, h.outer⟩⟩

/-- The calls of a module that was inlined can be read. -/
theorem Detached.readable [KeyOrder] (d : m.Detached) {i : Inliner} {n : Nat} (h : (i.inlineMain m).replaced = .ok n) :
    m.bodies.Readable := by
  have read := readable_of_inlineMain h
  refine ⟨fun f hf => ?_, fun f hf l hl hcall => ?_, fun f hf => d.callees f (m.functions_bodies ▸ hf)⟩
  · obtain ⟨⟨name, hname⟩, -⟩ := read f (m.functions_bodies ▸ hf)
    obtain ⟨first, rest, hlines, hd, ho⟩ := Function.name_eq_ok.mp hname
    exact ⟨first, by rw [hlines]; rfl, ho, by rw [hd]; rfl⟩
  · obtain ⟨-, callees, hcallees⟩ := read f (m.functions_bodies ▸ hf)
    obtain ⟨calls, hcalls, -⟩ := bind_eq_ok.mp hcallees
    obtain ⟨call, -, hc⟩ := exists_of_forall₂ (mapM_eq_ok.mp hcalls) l (List.mem_filter.mpr ⟨hl, hcall⟩)
    obtain ⟨hd, hr⟩ := Call.ofLine_eq_ok.mp hc
    exact ⟨by rw [hd]; rfl, by rw [hr]; simp⟩

end Module

/-! ## The steps of a link -/

section Steps

variable {o : Options} {kernel wrapper : Module} {out : Linked}

/-- The joined module with the kernel's name in the place of the placeholder. -/
def LinkSteps.patched [KeyOrder] (s : LinkSteps o kernel wrapper out) : Module :=
  s.joined.setMain (s.main.lines.map (Line.replaceId o.placeholder out.stats.kernel))

theorem LinkSteps.linesOfKind_main [KeyOrder] (s : LinkSteps o kernel wrapper out) (lines : List Line) :
    (s.joined.setMain lines).linesOfKind .main = lines := by
  rw [Module.linesOfKind, s.blocksOf_main, List.flatMap_singleton]

/-- Main after inlining defines what it did otherwise than by calls, and uses what it defines
    or what is defined outside of functions. -/
theorem LinkSteps.inlined_supplied [KeyOrder] (s : LinkSteps o kernel wrapper out) (d : s.patched.Detached) :
    (∀ l ∈ s.inlinedLines, l.WellSpaced) ∧
      (∀ id, (∃ l ∈ s.patched.linesOfKind .main, l.isCall = false ∧ l.defined? = some id) →
        id ∈ s.inlinedLines.filterMap Line.defined?) ∧
      ∀ l ∈ s.inlinedLines, ∀ id ∈ l.operandIds, id ∈ s.patched.outerIds ∨ id ∈ s.inlinedLines.filterMap Line.defined? := by
  have hmain : s.patched.main? = some ⟨s.patched.linesOfKind .main⟩ := by
    rw [patched, s.linesOfKind_main]
    exact Module.main?_setMain s.main? _
  have hbodies := (Module.main?_bodies s.patched).trans hmain
  have inlining : ((Inliner.ofPrefix o.kernelPrefix).inlineMain s.patched).replaced = .ok s.calls := s.inlining
  have readable := d.readable inlining
  have plain : ∀ f ∈ s.patched.bodies.plainFunctions, ArgumentsReady f.lines := fun f hf =>
    d.arguments f (s.patched.functions_bodies ▸ Module.plain_mem_functions hf)
  have mem : ⟨s.patched.linesOfKind .main⟩ ∈ s.patched.bodies.functions := Module.mem_functions (Module.main_mem hbodies) rfl
  obtain ⟨calls, last, runs, hmodule, -⟩ :=
    runs_of_resolve d.tidy (fun callee => (Module.resolve_bodies s.patched callee).symm) hbodies hmain inlining
  have same : last = s.inlinedLines := by
    refine Module.setMain_inj s.main? ?_
    rw [← s.inlinedModule, ← Module.setMain_setMain]
    exact hmodule.symm
  rw [← same]
  exact runs.supplied d.tidy d.apart readable d.outside d.bodies plain
    (Hygienic.start d.tidy d.apart hbodies (readable.named mem) (d.arguments _ (s.patched.functions_bodies ▸ mem)))
    (Ready.start d.tidy readable hbodies) d.main

/-- The lines that are left once the functions went. -/
theorem LinkSteps.mem_kept [KeyOrder] (s : LinkSteps o kernel wrapper out) {l : Line} :
    l ∈ s.kept.lines ↔ l ∈ s.patched.outerLines ∨ l ∈ s.mainLines := by
  have outer : (s.joined.setMain s.mainLines).outerLines = s.patched.outerLines := by
    rw [patched, Module.outerLines_setMain s.main?, Module.outerLines_setMain s.main?]
  have lines := Module.mem_lines_iff_outer_or_main (m := s.joined.setMain s.mainLines) (l := l)
  rw [outer, s.linesOfKind_main] at lines
  rw [← lines, Module.lines, List.mem_flatMap, s.kept_eq.2]
  simp only [List.mem_filter, Module.mem_sorted, Bool.not_eq_true', beq_eq_false_iff_ne, and_assoc]

/-- What is left once the functions went defines all that it refers to, by identifiers. -/
theorem LinkSteps.kept_definesAll [KeyOrder] (s : LinkSteps o kernel wrapper out) (d : s.patched.Detached) :
    DefinesAll s.kept.lines ∧ ∀ l ∈ s.kept.lines, ∀ id ∈ l.defined?, Text.IsIdent id := by
  obtain ⟨spaced, defined, uses⟩ := s.inlined_supplied d
  have narrows : List.Forall₂ Narrows s.inlinedLines s.mainLines := Line.narrows_of_edits s.lowering spaced
  have main : ∀ id ∈ s.inlinedLines.filterMap Line.defined?, id ∈ s.kept.lines.filterMap Line.defined? := by
    intro id hid
    obtain ⟨l, hl, hd⟩ := List.mem_filterMap.mp hid
    obtain ⟨k, hk, hlk⟩ := exists_of_forall₂ narrows l hl
    exact List.mem_filterMap.mpr ⟨k, s.mem_kept.mpr (Or.inr hk), hlk.defined.trans hd⟩
  have outer : ∀ id ∈ s.patched.outerIds, id ∈ s.kept.lines.filterMap Line.defined? := by
    intro id hid
    obtain ⟨l, hl, hd⟩ := List.mem_filterMap.mp hid
    exact List.mem_filterMap.mpr ⟨l, s.mem_kept.mpr (Or.inl hl), hd⟩
  constructor
  · intro l hl id hid
    rcases s.mem_kept.mp hl with hl | hl
    · exact (d.outer l hl id hid).elim (outer id) fun hmain => main id (defined id hmain)
    · obtain ⟨k, hk, hkl⟩ := exists_of_forall₂_right narrows l hl
      exact (uses k hk id (hkl.uses (l.references_subset hid))).elim (outer id) (main id)
  · intro l hl id hid
    rcases s.mem_kept.mp hl with hl | hl
    · have name := Line.isName_of_defined hid
      refine ⟨name.sigil, fun c hc => ?_⟩
      have quote : c ≠ '"' := fun he => d.unquoted id (List.mem_filterMap.mpr ⟨l, hl, hid⟩) (he ▸ hc)
      rw [Text.endsIdent, name.noBlank c hc, beq_eq_false_iff_ne.mpr quote]
      rfl
    · obtain ⟨k, -, hkl⟩ := exists_of_forall₂_right narrows l hl
      exact (hkl.spaced.plain id (hkl.spaced.mem_ids_of_defined hid)).1

/-- Sweeping drops no line that defines or refers to anything. -/
theorem definesAll_swept {m : Module} (all : DefinesAll m.lines) : DefinesAll m.swept.lines := by
  intro l hl id hid
  obtain ⟨b, hb, hl⟩ := Module.mem_lines_swept.mp hl
  obtain ⟨k, hk, hd⟩ := List.mem_filterMap.mp (all l (List.mem_flatMap.mpr ⟨b, hb, b.swept_subset hl⟩) id hid)
  obtain ⟨c, hc, hk⟩ := List.mem_flatMap.mp hk
  exact List.mem_filterMap.mpr ⟨k, Module.mem_lines_swept.mpr ⟨c, hc, Block.mem_swept hk (Line.hasCode_of_defined hd)⟩, hd⟩

theorem definesAll_of_steps [KeyOrder] (s : LinkSteps o kernel wrapper out) (d : s.patched.Detached) : DefinesAll out.module.lines := by
  obtain ⟨all, ident⟩ := s.kept_definesAll d
  rw [s.module]
  exact definesAll_swept (definesAll_of_fuse s.fusing ident all)

end Steps

/-! ## Texts that are linked -/

namespace Link

/-- The module whose main is inlined when two texts are linked: the prepared kernel in the
    wrapper, with the kernel's name in the place of the placeholder. -/
def toInline (o : Options) (kernel wrapper : Text) : Logged Module := do
  let kernel ← Module.read kernel
  let wrapper ← Module.read wrapper
  let kernelId ← resolveKernel o wrapper
  let m ← splice (prepared o kernel) wrapper
  patch o kernelId m

end Link

/-- If nothing that stays needs what goes, the linked module defines every identifier that
    one of its lines refers to. -/
theorem linked_definesAll [KeyOrder] {o : Options} {kernel wrapper : Text} {m : Module} {out : Linked}
    (hm : (Link.toInline o kernel wrapper).result = .ok m) (d : m.Detached)
    (h : (linkSources o kernel wrapper).result = .ok out) : DefinesAll out.module.lines := by
  obtain ⟨k, hk, h⟩ := Logged.bind_result_eq_ok.mp h
  obtain ⟨w, hw, h⟩ := Logged.bind_result_eq_ok.mp h
  obtain ⟨s⟩ := linkModules_eq_ok h
  obtain ⟨k', hk', hm⟩ := Logged.bind_result_eq_ok.mp hm
  obtain ⟨w', hw', hm⟩ := Logged.bind_result_eq_ok.mp hm
  cases hk.symm.trans hk'
  cases hw.symm.trans hw'
  obtain ⟨id, hid, hm⟩ := Logged.bind_result_eq_ok.mp hm
  obtain ⟨joined, hjoined, hm⟩ := Logged.bind_result_eq_ok.mp hm
  cases s.kernelId.symm.trans hid
  cases s.splice.symm.trans hjoined
  obtain ⟨main, hmain, rfl⟩ := Link.patch_eq_ok hm
  cases s.main?.symm.trans hmain
  exact definesAll_of_steps s d

/-- A kernel that doubles a number. -/
def Link.doublingKernel : Text :=
  .ofLines ["OpCapability Kernel", "%uint = OpTypeInt 32 0", "%fn = OpTypeFunction %uint %uint",
    "%k = OpFunction %uint None %fn", "%x = OpFunctionParameter %uint", "%l = OpLabel", "%y = OpIAdd %uint %x %x",
    "OpReturnValue %y", "OpFunctionEnd"]

/-- A wrapper that squares the result of the kernel. The declaration that stands for the
    kernel stays, and some lines of the header are left open. -/
def Link.squaringWrapper (names : List String) : Text :=
  .ofLines (["OpCapability Shader"] ++ names ++ ["%RS_KERNELS = OpString \"%k \"", "OpDecorate %buf Binding 0",
    "%void = OpTypeVoid", "%uint = OpTypeInt 32 0", "%fn = OpTypeFunction %void", "%fu = OpTypeFunction %uint %uint",
    "%ptr = OpTypePointer Uniform %uint", "%buf = OpVariable %ptr Uniform",
    "%RS_SPIRV_DUMMY_ = OpFunction %uint None %fu", "%d = OpFunctionParameter %uint", "OpFunctionEnd",
    "%square = OpFunction %uint None %fu", "%h = OpFunctionParameter %uint", "%ls = OpLabel", "%z = OpIMul %uint %h %h",
    "OpReturnValue %z", "OpFunctionEnd",
    "%main = OpFunction %void None %fn", "%lm = OpLabel", "%in = OpLoad %uint %buf",
    "%res = OpFunctionCall %uint %RS_SPIRV_DUMMY_ %in", "%sum = OpFunctionCall %uint %square %res", "OpStore %buf %sum",
    "OpReturn", "OpFunctionEnd"])

attribute [local instance] KeyOrder.listed

/-- Main can be named: both calls are inlined, and the types of the kernel are fused. -/
theorem linked_definesAll_squaring : ∃ m out,
    (Link.toInline .standard Link.doublingKernel (Link.squaringWrapper ["OpName %main \"main\""])).result = .ok m ∧ m.Detached ∧
      (linkSources .standard Link.doublingKernel (Link.squaringWrapper ["OpName %main \"main\""])).result = .ok out ∧
      DefinesAll out.module.lines := by
  have ready : ((Link.toInline .standard Link.doublingKernel (Link.squaringWrapper ["OpName %main \"main\""])).result.map
      fun m => decide m.Detached) = .ok true := by
    decide +kernel
  have ok : ((linkSources .standard Link.doublingKernel (Link.squaringWrapper ["OpName %main \"main\""])).result.map
      fun _ => ()) = .ok () := by
    decide +kernel
  obtain ⟨m, hm, detached⟩ := map_eq_ok.mp ready
  obtain ⟨out, hout, -⟩ := map_eq_ok.mp ok
  have d : m.Detached := of_decide_eq_true detached
  exact ⟨m, out, hm, d, hout, linked_definesAll hm d hout⟩

/-- A name for a function stays when the function goes. -/
theorem linked_leaves_name : ∃ out,
    DefinesAll (Module.linesOf Link.doublingKernel) ∧
      DefinesAll (Module.linesOf (Link.squaringWrapper ["OpName %square \"square\""])) ∧
      (linkSources .standard Link.doublingKernel (Link.squaringWrapper ["OpName %square \"square\""])).result = .ok out ∧
      ¬ DefinesAll out.module.lines := by
  have ok : ((linkSources .standard Link.doublingKernel (Link.squaringWrapper ["OpName %square \"square\""])).result.map
      fun out => decide (DefinesAll out.module.lines)) = .ok false := by
    decide +kernel
  obtain ⟨out, hout, dangles⟩ := map_eq_ok.mp ok
  exact ⟨out, by decide +kernel, by decide +kernel, hout, of_decide_eq_false dangles⟩

end SpirvLink
