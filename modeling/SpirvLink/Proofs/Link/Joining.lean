/-
  SpirvLink.Proofs.Link.Joining — which modules a splice accepts, and what it joins them to.

  Both modules are walked block by block, so what decides are their sequences of kinds
  (`WrapperKinds`, `KernelKinds`) and the kernel's functions, each of which has to call other
  functions only (`Function.CallsOthers`). A splice succeeds just if all three are so, and
  then takes every block of the wrapper, and from the kernel the definitions, the variables
  and the functions (`splice_isOk`, `splice_blocks`).

  `splice_exact` puts these together and tells what a link makes of the answer: it shows the
  joined module, or fails as the splice does and shows none.
-/

import SpirvLink.Link.Basic
import SpirvLink.Proofs.Link.Preparing
import SpirvLink.Proofs.Link.Splice

namespace SpirvLink

/-! ## The grammar -/

namespace Splice

/-- The kinds that follow the variables. -/
def IsRestKind (k : BlockKind) : Prop :=
  k = .function ∨ k = .declaration ∨ k = .main

/-- Header, decorations, definitions, variables, and then functions and declarations with one
    main function among them. -/
def WrapperKinds (kinds : List BlockKind) : Prop :=
  ∃ rest, kinds = [.header, .decorations, .definitions, .globalVariables] ++ rest ∧
    (∀ k ∈ rest, IsRestKind k) ∧ rest.count .main = 1

/-- Header, decorations, definitions, variables or none, and then functions and declarations
    with any main functions among them. -/
def KernelKinds (kinds : List BlockKind) : Prop :=
  ∃ globals rest, kinds = [.header, .decorations, .definitions] ++ (globals ++ rest) ∧
    (globals = [] ∨ globals = [.globalVariables]) ∧ ∀ k ∈ rest, IsRestKind k

end Splice

/-- The function has a name, its calls can be read, and none of them is to itself. -/
def Function.CallsOthers (f : Function) : Prop :=
  ∃ name, f.name = .ok name ∧
    ∀ l ∈ f.lines, l.isCall = true → ∃ call, Call.ofLine l = .ok call ∧ call.callee ≠ name

theorem Function.callsItself_eq_false {f : Function} : f.callsItself = .ok false ↔ f.CallsOthers := by
  have others : f.callsItself = .ok false ↔
      ∃ name, f.name = .ok name ∧ ∃ callees, f.callees = .ok callees ∧ name ∉ callees := by
    rw [callsItself, bind_eq_ok]
    refine exists_congr fun name => and_congr_right fun _ => ?_
    rw [bind_eq_ok]
    refine exists_congr fun callees => and_congr_right fun _ => ?_
    simp [pure, Except.pure]
  rw [others]
  refine exists_congr fun name => and_congr_right fun _ => ?_
  constructor
  · rintro ⟨callees, h, hname⟩ l hl hcall
    obtain ⟨calls, hcalls, hcallees⟩ := bind_eq_ok.mp h
    cases hcallees
    obtain ⟨call, hmem, hline⟩ := exists_of_forall₂ (mapM_eq_ok.mp hcalls) l (List.mem_filter.mpr ⟨hl, hcall⟩)
    exact ⟨call, hline, fun he => hname (he ▸ List.mem_map_of_mem hmem)⟩
  · intro h
    obtain ⟨calls, hcalls⟩ : ∃ calls, List.Forall₂ (fun l c => Call.ofLine l = .ok c ∧ c.callee ≠ name)
        (f.lines.filter Line.isCall) calls :=
      exists_forall₂ fun l hl => h l (List.mem_filter.mp hl).1 (List.mem_filter.mp hl).2
    have read := hcalls.imp fun _ _ h => h.1
    refine ⟨calls.map Call.callee, bind_eq_ok.mpr ⟨calls, mapM_eq_ok.mpr read, rfl⟩, fun hname => ?_⟩
    obtain ⟨call, hmem, he⟩ := List.mem_map.mp hname
    obtain ⟨l, -, -, hne⟩ := exists_of_forall₂_right hcalls call hmem
    exact hne he

namespace Splice

variable {front kernelFront taken rest bs : List Block} {kernel wrapper m : Module}

theorem isRestKind_iff {b : Block} : IsRestKind b.kind ↔ b.hasBody = true ∨ b.kind = .declaration := by
  cases hk : b.kind <;> simp [IsRestKind, Block.hasBody, hk]

theorem count_main (bs : List Block) : (bs.map Block.kind).count .main = bs.countP Block.isMain := by
  rw [List.count_eq_countP, List.countP_map]
  rfl

/-! ## The kernel after its definitions -/

theorem takeVariables_kinds (bs : List Block) : (takeVariables bs).1.map Block.kind = [] ∨
    (takeVariables bs).1.map Block.kind = [.globalVariables] := by
  cases bs with
  | nil => exact .inl rfl
  | cons b bs =>
    rw [takeVariables]
    split
    · next hk => exact .inr (congrArg ([·]) hk)
    · exact .inl rfl

theorem kind_of_taken {b : Block} (hb : b ∈ (takeVariables bs).1) : b.kind = .globalVariables :=
  (takeVariables_eq bs).2 b hb

/-- The functions are those after the variables. -/
theorem functions_eq (hblocks : kernel.blocks = front ++ rest) (kinds : front.map Block.kind = frontKinds.take 3) :
    kernel.functions = ((takeVariables rest).2.filter Block.hasBody).map fun b => ⟨b.lines⟩ := by
  obtain ⟨header, decorations, definitions, rfl, h1, h2, h3⟩ := map_kind_eq_kernelKinds.mp kinds
  have bodiless : ∀ b ∈ [header, decorations, definitions], b.hasBody = false := by simp [Block.hasBody, h1, h2, h3]
  have taken : ∀ b ∈ (takeVariables rest).1, b.hasBody = false := fun b hb => by simp [Block.hasBody, kind_of_taken hb]
  rw [Module.functions, hblocks, ← (takeVariables_eq rest).1, List.filterMap_append, List.filterMap_append,
    functions_of_bodiless bodiless, functions_of_bodiless taken, filterMap_function?, (takeVariables_eq rest).1]
  rfl

theorem callsOthers_iff (hblocks : kernel.blocks = front ++ rest) (kinds : front.map Block.kind = frontKinds.take 3) :
    (∀ b ∈ (takeVariables rest).2.filter Block.hasBody, (⟨b.lines⟩ : Function).callsItself = .ok false) ↔
      ∀ f ∈ kernel.functions, f.CallsOthers := by
  rw [functions_eq hblocks kinds, List.forall_mem_map]
  exact forall₂_congr fun b _ => Function.callsItself_eq_false

/-! ## What is accepted -/

theorem wrapperKinds_iff : WrapperKinds (wrapper.blocks.map Block.kind) ↔ ∃ front rest,
    (wrapper.blocks = front ++ rest ∧ front.map Block.kind = frontKinds) ∧ checkWrapperRest false rest = .ok () := by
  constructor
  · rintro ⟨restKinds, kinds, isRest, count⟩
    obtain ⟨front, rest, hblocks, hfront, rfl⟩ := List.map_eq_append_iff.mp kinds
    refine ⟨front, rest, ⟨hblocks, hfront⟩, checkWrapperRest_eq_ok.mpr ⟨?_, fun b hb => ?_⟩⟩
    · rw [← count_main, count]
      rfl
    · exact isRestKind_iff.mp (isRest _ (List.mem_map_of_mem hb))
  · rintro ⟨front, rest, ⟨hblocks, hfront⟩, check⟩
    obtain ⟨count, isRest⟩ := checkWrapperRest_eq_ok.mp check
    refine ⟨rest.map Block.kind, by rw [hblocks, List.map_append, hfront]; rfl, ?_, by rw [count_main, count]; rfl⟩
    rw [List.forall_mem_map]
    exact fun b hb => isRestKind_iff.mpr (isRest b hb)

theorem kernelKinds_iff : KernelKinds (kernel.blocks.map Block.kind) ↔ ∃ front rest,
    (kernel.blocks = front ++ rest ∧ front.map Block.kind = frontKinds.take 3) ∧
      ∀ b ∈ (takeVariables rest).2, b.hasBody = true ∨ b.kind = .declaration := by
  constructor
  · rintro ⟨globals, restKinds, kinds, hglobals, isRest⟩
    obtain ⟨front, rest, hblocks, hfront, hrest⟩ := List.map_eq_append_iff.mp kinds
    obtain ⟨taken, rest, rfl, rfl, rfl⟩ := List.map_eq_append_iff.mp hrest
    have cut : takeVariables (taken ++ rest) = (taken, rest) := by
      refine takeVariables_append (hglobals.imp List.map_eq_nil_iff.mp fun h => ?_) fun b hb => ?_
      · obtain ⟨b, hb, hk⟩ := List.map_eq_singleton_iff.mp h
        exact ⟨b, hb, hk⟩
      · have := isRest _ (List.mem_map_of_mem hb)
        rintro hk
        simp [IsRestKind, hk] at this
    refine ⟨front, taken ++ rest, ⟨hblocks, hfront⟩, ?_⟩
    rw [cut]
    exact fun b hb => isRestKind_iff.mp (isRest _ (List.mem_map_of_mem hb))
  · rintro ⟨front, rest, ⟨hblocks, hfront⟩, isRest⟩
    refine ⟨(takeVariables rest).1.map Block.kind, (takeVariables rest).2.map Block.kind, ?_, takeVariables_kinds rest, ?_⟩
    · rw [hblocks, List.map_append, hfront, ← List.map_append, (takeVariables_eq rest).1]
      rfl
    · rw [List.forall_mem_map]
      exact fun b hb => isRestKind_iff.mpr (isRest b hb)

end Splice

open Splice

variable {kernel wrapper m : Module}

/-- A splice succeeds just on the grammar, and with functions that call others. -/
theorem splice_isOk (kernel wrapper : Module) : (∃ m, splice kernel wrapper = .ok m) ↔
    WrapperKinds (wrapper.blocks.map Block.kind) ∧ KernelKinds (kernel.blocks.map Block.kind) ∧
      ∀ f ∈ kernel.functions, f.CallsOthers := by
  rw [wrapperKinds_iff, kernelKinds_iff]
  constructor
  · rintro ⟨m, h⟩
    obtain ⟨front, rest, kernelFront, kernelRest, functions, hw, hk, check, hfunctions, -⟩ := splice_eq_ok.mp h
    obtain ⟨kinds, others, -⟩ := kernelFunctions_iff.mp hfunctions
    exact ⟨⟨front, rest, hw, check⟩, ⟨kernelFront, kernelRest, hk, kinds⟩, (callsOthers_iff hk.1 hk.2).mp others⟩
  · rintro ⟨⟨front, rest, hw, check⟩, ⟨kernelFront, kernelRest, hk, kinds⟩, others⟩
    exact ⟨_, splice_eq_ok.mpr ⟨front, rest, kernelFront, kernelRest, _, hw, hk, check,
      kernelFunctions_iff.mpr ⟨kinds, (callsOthers_iff hk.1 hk.2).mpr others, rfl⟩, rfl⟩⟩

/-! ## What is joined -/

section

variable {front rest : List Block}

/-- Definitions and variables stand before the functions and declarations. -/
theorem filter_rest {k : BlockKind} (hk : k = .definitions ∨ k = .globalVariables)
    (isRest : ∀ b ∈ rest, b.hasBody = true ∨ b.kind = .declaration) : rest.filter (fun b => b.kind == k) = [] := by
  refine List.filter_eq_nil_iff.mpr fun b hb he => ?_
  have := isRest b hb
  rw [Block.hasBody, eq_of_beq he] at this
  rcases hk with rfl | rfl <;> simp at this

theorem wrapper_parts (hblocks : wrapper.blocks = front ++ rest) (kinds : front.map Block.kind = frontKinds)
    (isRest : ∀ b ∈ rest, b.hasBody = true ∨ b.kind = .declaration) :
    wrapper.blocks.take 3 = front.take 3 ∧ wrapper.blocksOf .globalVariables = front.drop 3 ∧
      wrapper.blocks.drop 4 = rest := by
  obtain ⟨header, decorations, definitions, globals, rfl, h1, h2, h3, h4⟩ := map_kind_eq_frontKinds.mp kinds
  rw [Module.blocksOf, hblocks]
  exact ⟨rfl, by simp [h1, h2, h3, h4, filter_rest (.inr rfl) isRest], rfl⟩

theorem kernel_parts (hblocks : kernel.blocks = front ++ rest) (kinds : front.map Block.kind = frontKinds.take 3)
    (isRest : ∀ b ∈ (takeVariables rest).2, b.hasBody = true ∨ b.kind = .declaration) :
    kernel.blocksOf .definitions = front.drop 2 ∧ kernel.blocksOf .globalVariables = (takeVariables rest).1 := by
  obtain ⟨header, decorations, definitions, rfl, h1, h2, h3⟩ := map_kind_eq_kernelKinds.mp kinds
  have taken : (takeVariables rest).1.filter (fun b => b.kind == .globalVariables) = (takeVariables rest).1 :=
    List.filter_eq_self.mpr fun b hb => by simp [kind_of_taken hb]
  have untyped : (takeVariables rest).1.filter (fun b => b.kind == .definitions) = [] :=
    List.filter_eq_nil_iff.mpr fun b hb => by simp [kind_of_taken hb]
  rw [Module.blocksOf, Module.blocksOf, hblocks, ← (takeVariables_eq rest).1, List.filter_append, List.filter_append,
    List.filter_append, List.filter_append, taken, untyped, filter_rest (.inl rfl) isRest, filter_rest (.inr rfl) isRest,
    (takeVariables_eq rest).1]
  simp [h1, h2, h3]

end

/-- The wrapper's first three blocks, the kernel's definitions, both modules' variables, the
    rest of the wrapper, and the kernel's functions as plain ones. -/
theorem splice_blocks (h : splice kernel wrapper = .ok m) :
    m.blocks = wrapper.blocks.take 3 ++ kernel.blocksOf .definitions ++ wrapper.blocksOf .globalVariables ++
      kernel.blocksOf .globalVariables ++ wrapper.blocks.drop 4 ++
        kernel.functions.map fun f => ⟨.function, f.lines⟩ := by
  obtain ⟨front, rest, kernelFront, kernelRest, functions, hw, hk, check, hfunctions, rfl⟩ := splice_eq_ok.mp h
  obtain ⟨isRest, -, rfl⟩ := kernelFunctions_iff.mp hfunctions
  obtain ⟨first, globals, last⟩ := wrapper_parts hw.1 hw.2 (checkWrapperRest_eq_ok.mp check).2
  obtain ⟨kernelDefinitions, kernelGlobals⟩ := kernel_parts hk.1 hk.2 isRest
  rw [first, globals, last, kernelDefinitions, kernelGlobals, functions_eq hk.1 hk.2, List.map_map]
  rfl

/-! ## The splice of a link -/

section

variable {o : Options} {kernel wrapper m : Module} {id : Text} {e : LinkError}

theorem spliced_not_shown (kernel : Module) : .showing .spliced ∉ Link.showing .prefixed kernel := by
  intro h
  rcases List.mem_cons.mp h with h | h
  · cases h
  · obtain ⟨b, -, hb⟩ := List.mem_flatMap.mp h
    simp [Block.shown] at hb

/-- Two events told before a step that can fail are told whether or not it fails. -/
theorem Logged.tell_tell_bind {α β : Type} (before after : List Event) (x : Except LinkError α) (f : α → Logged β) :
    (tell before >>= fun _ => tell after >>= fun _ => ofExcept x >>= f) = (⟨before ++ after, x⟩ : Logged α) >>= f := by
  cases x with
  | error e => exact ext (congrArg (before ++ ·) (List.append_nil after)) rfl
  | ok a => exact ext (List.append_assoc before after (f a).log).symm rfl

/-- What a link tells before the splice, and what it does with the joined module. -/
theorem linkModules_splices [KeyOrder] (valid : o.validate = .ok ()) (resolved : Link.resolveKernel o wrapper = .ok id) :
    ∃ (told : List Event) (rest : Module → Logged Linked), .showing .spliced ∉ told ∧
      linkModules o kernel wrapper = (⟨told, splice (Link.prepared o kernel) wrapper⟩ : Logged Module) >>= fun m =>
        Logged.tell (Link.showing .spliced m) >>= fun _ => rest m := by
  let moved := (Link.namespaced o kernel).countStorageClass o.storageClassFrom o.storageClassTo
  refine ⟨[.kernelResolved id] ++ .storageClassMoved moved o.storageClassFrom o.storageClassTo ::
    Link.showing .prefixed (Link.prepared o kernel), ?rest, ?told, ?link⟩
  case told => simp [spliced_not_shown]
  case link =>
    rw [← Logged.tell_tell_bind, linkModules, valid, resolved]
    rfl

/-- A splice that fails ends the link with its error, and one that succeeds is shown. -/
theorem link_of_splice [KeyOrder] (valid : o.validate = .ok ()) (resolved : Link.resolveKernel o wrapper = .ok id) :
    (∀ e, splice (Link.prepared o kernel) wrapper = .error e →
      (linkModules o kernel wrapper).result = .error e ∧ .showing .spliced ∉ (linkModules o kernel wrapper).log) ∧
    ∀ m, splice (Link.prepared o kernel) wrapper = .ok m →
      Link.showing .spliced m <:+: (linkModules o kernel wrapper).log := by
  obtain ⟨told, rest, notTold, hlink⟩ := @linkModules_splices o kernel wrapper id _ valid resolved
  refine ⟨fun e h => ?_, fun m h => ?_⟩
  · rw [hlink, h]
    exact ⟨rfl, notTold⟩
  · rw [hlink, h]
    exact ⟨told, (rest m).log, List.append_assoc ..⟩

/-- The kernel that is joined has blocks of the kinds that were read. -/
theorem map_kind_prepared (o : Options) (kernel : Module) :
    (Link.prepared o kernel).blocks.map Block.kind = kernel.blocks.map Block.kind := by
  rw [Link.prepared_eq_mapLines, Module.mapLines, Module.mapBlocks, List.map_map]
  rfl

end

/-- A splice succeeds just if the wrapper has the kinds of a wrapper, the kernel those of a
    kernel, and each function of the kernel calls others only. The joined module has all
    blocks of the wrapper and, from the kernel, the definitions, the variables and the
    functions. A link with valid options and one listed kernel does what the splice of its
    prepared kernel does. -/
theorem splice_exact [KeyOrder] (kernel wrapper : Module) :
    ((∃ m, splice kernel wrapper = .ok m) ↔
      WrapperKinds (wrapper.blocks.map Block.kind) ∧ KernelKinds (kernel.blocks.map Block.kind) ∧
        ∀ f ∈ kernel.functions, f.CallsOthers) ∧
    (∀ m, splice kernel wrapper = .ok m →
      m.blocks = wrapper.blocks.take 3 ++ kernel.blocksOf .definitions ++ wrapper.blocksOf .globalVariables ++
        kernel.blocksOf .globalVariables ++ wrapper.blocks.drop 4 ++
          kernel.functions.map fun f => ⟨.function, f.lines⟩) ∧
    ∀ (o : Options) (id : Text) (source : Module), o.validate = .ok () → Link.resolveKernel o wrapper = .ok id →
      Link.prepared o source = kernel → kernel.blocks.map Block.kind = source.blocks.map Block.kind ∧
        (∀ e, splice kernel wrapper = .error e →
          (linkModules o source wrapper).result = .error e ∧ .showing .spliced ∉ (linkModules o source wrapper).log) ∧
        ∀ m, splice kernel wrapper = .ok m → Link.showing .spliced m <:+: (linkModules o source wrapper).log := by
  refine ⟨splice_isOk kernel wrapper, fun m => splice_blocks, ?_⟩
  rintro o id source valid resolved rfl
  exact ⟨map_kind_prepared o source, link_of_splice valid resolved⟩

/-- A kernel with a declaration, a main function and no variables, and a wrapper whose main
    comes before its function. -/
def mixedModules : Module × Module :=
  (⟨[⟨.header, []⟩, ⟨.decorations, []⟩, ⟨.definitions, [⟨"%uint = OpTypeInt 32 0".toList⟩]⟩,
      ⟨.declaration, [⟨"%d = OpFunction %uint None %fn".toList⟩, ⟨"OpFunctionEnd".toList⟩]⟩,
      ⟨.main, ["%main = OpFunction %uint None %fn", "%l = OpLabel", "%y = OpFunctionCall %uint %d",
        "OpReturnValue %y", "OpFunctionEnd"].map fun s => ⟨s.toList⟩⟩]⟩,
    ⟨[⟨.header, [⟨"%RS_KERNELS = OpString \"%k \"".toList⟩]⟩, ⟨.decorations, []⟩, ⟨.definitions, []⟩,
      ⟨.globalVariables, [⟨"%buf = OpVariable %ptr Uniform".toList⟩]⟩,
      ⟨.main, ["%main = OpFunction %void None %fv", "%lm = OpLabel", "OpReturn",
        "OpFunctionEnd"].map fun s => ⟨s.toList⟩⟩,
      ⟨.function, ["%h = OpFunction %void None %fv", "%lh = OpLabel", "OpReturn",
        "OpFunctionEnd"].map fun s => ⟨s.toList⟩⟩]⟩)

attribute [local instance] KeyOrder.listed

theorem splice_exact_mixed :
    let kernel := Link.prepared .standard mixedModules.1
    Options.standard.validate = .ok () ∧ Link.resolveKernel .standard mixedModules.2 = .ok "%rs_linker_k".toList ∧
      (∀ f ∈ kernel.functions, f.CallsOthers) ∧ ∃ m, splice kernel mixedModules.2 = .ok m ∧
        m.blocks.map Block.kind = [.header, .decorations, .definitions, .definitions, .globalVariables, .main, .function,
          .function] ∧
        Link.showing .spliced m <:+: (linkModules .standard mixedModules.1 mixedModules.2).log := by
  intro kernel
  have valid : Options.standard.validate = .ok () := by decide
  have resolved : Link.resolveKernel .standard mixedModules.2 = .ok "%rs_linker_k".toList := by decide +kernel
  have ok : ((splice kernel mixedModules.2).map fun m => m.blocks.map Block.kind) = .ok [.header, .decorations,
      .definitions, .definitions, .globalVariables, .main, .function, .function] := by
    decide +kernel
  obtain ⟨m, hm, hkinds⟩ := map_eq_ok.mp ok
  obtain ⟨succeeds, -, link⟩ := splice_exact kernel mixedModules.2
  exact ⟨valid, resolved, (succeeds.mp ⟨m, hm⟩).2.2, m, hm, hkinds, (link _ _ _ valid resolved rfl).2.2 m hm⟩

end SpirvLink
