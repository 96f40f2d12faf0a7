/-
  SpirvLink.Proofs.Link.Stability — when fusing a linked module finds nothing.

  A link fuses once, so it leaves two equal types where the one's operand is deleted after it
  was read: a pointer in the kernel whose integer follows it stays beside the wrapper's
  pointer (`linked_fuses_again`). Where fusion settles the types and constants that it reads,
  fusing what was linked changes nothing (`linked_settles`), though they may use others ahead
  of their definitions.
-/

import SpirvLink.Proofs.Fusion.Stability
import SpirvLink.Proofs.Link.References

namespace SpirvLink

open Fusion

/-- Sweeping drops no definition. -/
theorem Module.definitions_swept (m : Module) : m.swept.definitions = m.definitions := by
  rw [definitions, lines_swept, definitions, lines, List.filterMap_flatMap, List.filterMap_flatMap]
  congr 1
  funext b
  rw [b.lines_swept]
  exact filterMap_filter_definition (fun _ hl => b.leaves_of_hasCode hl) _

namespace Link

/-- The module whose types and constants are fused when two texts are linked: main is inlined
    and lowered, the blocks are sorted, and the functions that main does not call are gone. -/
def toFuse [KeyOrder] (o : Options) (kernel wrapper : Text) : Logged Module := do
  let m ← toInline o kernel wrapper
  let (_, m) ← inlined o m
  let (_, m) ← onMain Line.dropElements m
  let (_, m) ← onMain Line.defineAllLanes m
  let (_, m) ← m.sorted.removeUnused
  return m

/-- A link fuses that module and sweeps what is left. -/
theorem fused_of_link [KeyOrder] {o : Options} {kernel wrapper : Text} {out : Linked} (h : (linkSources o kernel wrapper).result = .ok out) :
    ∃ m n fused, (toFuse o kernel wrapper).result = .ok m ∧ m.fuse.result = .ok (n, fused) ∧ out.module = fused.swept := by
  obtain ⟨k, hk, h⟩ := Logged.bind_result_eq_ok.mp h
  obtain ⟨w, hw, h⟩ := Logged.bind_result_eq_ok.mp h
  obtain ⟨run⟩ := linkRun_of_ok h
  have joined : (toInline o kernel wrapper).result = .ok run.patched :=
    Logged.bind_result_eq_ok.mpr ⟨k, hk, Logged.bind_result_eq_ok.mpr ⟨w, hw, Logged.bind_result_eq_ok.mpr ⟨_, run.kernelId,
      Logged.bind_result_eq_ok.mpr ⟨_, run.splice, run.patch⟩⟩⟩⟩
  have ready : (toFuse o kernel wrapper).result = .ok run.kept :=
    Logged.bind_result_eq_ok.mpr ⟨_, joined, Logged.bind_result_eq_ok.mpr ⟨_, run.inlining,
      Logged.bind_result_eq_ok.mpr ⟨_, run.chains, Logged.bind_result_eq_ok.mpr ⟨_, run.lanes,
        Logged.bind_result_eq_ok.mpr ⟨_, run.removing, rfl⟩⟩⟩⟩⟩
  exact ⟨run.kept, _, run.fused, ready, run.fusing, run.module⟩

end Link

/-- If fusion settles the types and constants that it reads in a link, no two of those in the
    linked module have one right-hand side, and fusing it again counts nothing and changes
    nothing. -/
theorem linked_settles [KeyOrder] {o : Options} {kernel wrapper : Text} {m : Module} {out : Linked}
    (hm : (Link.toFuse o kernel wrapper).result = .ok m) (settles : m.definitions.Settles out.module.definitions.ids)
    (h : (linkSources o kernel wrapper).result = .ok out) :
    (keysOf out.module.lines).Nodup ∧ out.module.fuse.result = .ok (0, out.module) := by
  obtain ⟨m', n, fused, hm', hfuse, hout⟩ := Link.fused_of_link h
  cases hm.symm.trans hm'
  have same : out.module.definitions = fused.definitions := by rw [hout, Module.definitions_swept]
  rw [same] at settles
  have nodup : (keysOf out.module.lines).Nodup := by
    rw [keysOf, ← Module.definitions, same]
    exact Module.nodup_of_fuse hfuse settles
  exact ⟨nodup, Module.fuse_eq_self nodup⟩

/-- A kernel whose list points to a node that is defined after it and has these members. -/
def Link.listKernel (members : String) : Text :=
  .ofLines ["OpCapability Kernel", "OpTypeForwardPointer %p Uniform", "%uint = OpTypeInt 32 0",
    "%list = OpTypeStruct %uint %p", "%node = OpTypeStruct " ++ members, "%p = OpTypePointer Uniform %node",
    "%_ptr_Uniform_uint = OpTypePointer Uniform %uint", "%_ptr_Function_uint = OpTypePointer Function %uint",
    "%fn = OpTypeFunction %uint %uint", "%k = OpFunction %uint None %fn", "%x = OpFunctionParameter %uint",
    "%l = OpLabel", "%y = OpIAdd %uint %x %x", "OpReturnValue %y", "OpFunctionEnd"]

/-- A wrapper with a pair of a number and a pointer to a node that has one number. -/
def Link.pairWrapper : Text :=
  .ofLines ["OpCapability Shader", "%RS_KERNELS = OpString \"%k \"", "%void = OpTypeVoid", "%uint = OpTypeInt 32 0",
    "%node = OpTypeStruct %uint", "%ptr = OpTypePointer Uniform %node", "%pair = OpTypeStruct %uint %ptr",
    "%fn = OpTypeFunction %void", "%ptr_uint = OpTypePointer Uniform %uint", "%buf = OpVariable %ptr_uint Uniform",
    "%main = OpFunction %void None %fn", "%lm = OpLabel", "%in = OpLoad %uint %buf",
    "%res = OpFunctionCall %uint %RS_SPIRV_DUMMY_ %in", "OpStore %buf %res", "OpReturn", "OpFunctionEnd"]

attribute [local instance] KeyOrder.listed

/-- The nodes differ, so the pointer that the list uses ahead of its definition stays. Two
    pointers of the kernel get one name from the storage class, and both go. -/
theorem linked_settles_list : ∃ m out,
    (Link.toFuse .standard (Link.listKernel "%uint %uint") Link.pairWrapper).result = .ok m ∧ ¬ m.UsesEarlier ∧
      ¬ m.definitions.ids.Nodup ∧ m.definitions.Settles out.module.definitions.ids ∧
      (linkSources .standard (Link.listKernel "%uint %uint") Link.pairWrapper).result = .ok out ∧
      (keysOf out.module.lines).Nodup ∧ out.module.fuse.result = .ok (0, out.module) := by
  have ok : ((Link.toFuse .standard (Link.listKernel "%uint %uint") Link.pairWrapper).result.bind fun m =>
      (linkSources .standard (Link.listKernel "%uint %uint") Link.pairWrapper).result.map fun out =>
        decide (¬ m.UsesEarlier ∧ ¬ m.definitions.ids.Nodup ∧ m.definitions.Settles out.module.definitions.ids)) = .ok true := by
    decide +kernel
  obtain ⟨m, hm, ok⟩ := bind_eq_ok.mp ok
  obtain ⟨out, hout, holds⟩ := map_eq_ok.mp ok
  obtain ⟨ahead, merged, settles⟩ := of_decide_eq_true holds
  exact ⟨m, out, hm, ahead, merged, settles, hout, linked_settles hm settles hout⟩

/-- With one node the kernel's pointer is deleted after its list was read, and then the list
    is the wrapper's pair: both are left, and fusing again deletes one. -/
theorem linked_fuses_again :
    ((Module.linesOf (Link.listKernel "%uint")).filterMap Line.defined?).Nodup ∧
      ((Module.linesOf Link.pairWrapper).filterMap Line.defined?).Nodup ∧
      ∃ out again, (linkSources .standard (Link.listKernel "%uint") Link.pairWrapper).result = .ok out ∧
        ¬ (keysOf out.module.lines).Nodup ∧ out.module.fuse.result = .ok (1, again) ∧
        again.toText false ≠ out.module.toText false := by
  have ok : ((linkSources .standard (Link.listKernel "%uint") Link.pairWrapper).result.bind fun out =>
      out.module.fuse.result.map fun again => (again.1, decide (¬ (keysOf out.module.lines).Nodup ∧
        again.2.toText false ≠ out.module.toText false))) = .ok (1, true) := by
    decide +kernel
  obtain ⟨out, hout, ok⟩ := bind_eq_ok.mp ok
  obtain ⟨⟨n, again⟩, hfuse, holds⟩ := map_eq_ok.mp ok
  obtain ⟨rfl, differs⟩ := Prod.mk.inj holds
  obtain ⟨keys, text⟩ := of_decide_eq_true differs
  exact ⟨by decide +kernel, by decide +kernel, out, again, hout, keys, hfuse, text⟩

end SpirvLink
