/-
  SpirvLink.Proofs.Link.KernelCode — how the kernel's code gets into a linked module.

  A link asks for the placeholder anywhere in the wrapper's main, as an operand of any line,
  and puts the kernel's name there. Only a call brings code in: `linked_without_kernel` links
  with a main that stores the placeholder and calls nothing. Where main calls the kernel once
  the name is put in, the first pass of inlining leaves a copy of the kernel's body in the
  place of the call (`linked_copies_kernel`).
-/

import SpirvLink.Proofs.Inlining.Placement
import SpirvLink.Proofs.Line.Replacing
import SpirvLink.Proofs.Link.Shape

namespace SpirvLink

/-- The line is a complete call of the function of this name. -/
def Line.Calls (l : Line) (name : Text) : Prop :=
  l.isCall = true ∧ ∃ call, Call.ofLine l = .ok call ∧ call.callee = name

instance (l : Line) (name : Text) : Decidable (l.Calls name) :=
  decidable_of_iff (l.isCall = true ∧ ∃ call ∈ (Call.ofLine l).toOption, call.callee = name)
    (by simp only [Line.Calls, mem_toOption])

variable {o : Options} {kernel wrapper m : Module} {out : Linked} {l : Line} {old new : Text}

/-- A call of an identifier becomes one of the identifier put in its place. -/
theorem Line.Calls.replaceId (h : l.Calls old) (hold : '=' ∉ old) (hnew : '=' ∉ new) (ident : Text.IsIdent new) :
    (l.replaceId old new).Calls new := by
  obtain ⟨hl, call, hline, rfl⟩ := h
  obtain ⟨hd, hr⟩ := Call.ofLine_eq_ok.mp hline
  obtain ⟨defined, isCall, rhs⟩ := Line.replaceId_reads (by decide) (by rw [hd]; rfl) hl hold hnew ident
  obtain ⟨result, hresult⟩ := Option.isSome_iff_exists.mp defined
  rw [hr, List.map_cons, List.map_cons, show Text.only call.callee new call.callee = new from if_pos rfl] at rhs
  exact ⟨isCall, ⟨result, _, new, _⟩, Call.ofLine_eq_ok.mpr ⟨hresult, rhs⟩, rfl⟩

/-! ## The module that is inlined -/

namespace Link

/-- The joined module with the kernel's name in the place of the placeholder. -/
def patched (o : Options) (kernel wrapper : Module) : Except LinkError Module := do
  let kernelId ← resolveKernel o wrapper
  let m ← splice (prepared o kernel) wrapper
  (patch o kernelId m).result

theorem exists_of_total_ne_zero {number : Line → Nat} : ∀ {ls : List Line}, Line.total number ls ≠ 0 →
    ∃ l ∈ ls, number l ≠ 0
  | [], h => absurd rfl h
  | l :: ls, h => by
    by_cases hl : number l = 0
    · rw [Line.total, hl, Nat.zero_add] at h
      obtain ⟨k, hk, hn⟩ := exists_of_total_ne_zero h
      exact ⟨k, List.mem_cons_of_mem l hk, hn⟩
    · exact ⟨l, List.mem_cons_self .., hl⟩

/-- The patch asks for the placeholder among the identifiers of main. -/
theorem placeholder_of_patch {id : Text} {m' : Module} {main : Function} (h : (patch o id m).result = .ok m')
    (hmain : m.main? = some main) : ∃ l ∈ main.lines, o.placeholder ∈ l.ids := by
  obtain ⟨main', hmain', hcount, -⟩ := patch_eq_ok_iff.mp h
  cases hmain.symm.trans hmain'
  obtain ⟨l, hl, hn⟩ := exists_of_total_ne_zero hcount
  exact ⟨l, hl, List.count_pos_iff.mp (Nat.pos_of_ne_zero hn)⟩

/-- A link patches the main of the joined module, and tells what inlining tells. -/
theorem patch_of_link [KeyOrder] (h : (linkModules o kernel wrapper).result = .ok out) (s : LinkSteps o kernel wrapper out) :
    let m := s.joined.setMain (s.main.lines.map (Line.replaceId o.placeholder out.stats.kernel))
    (patch o out.stats.kernel s.joined).result = .ok m ∧
      ∀ ev ∈ ((Inliner.ofPrefix o.kernelPrefix).inlineMain m).log, ev ∈ (linkModules o kernel wrapper).log := by
  obtain ⟨run⟩ := linkRun_of_ok h
  have hpatch := run.patch
  have told := run.told
  rw [← Except.ok.inj (s.splice.symm.trans run.splice)] at hpatch
  obtain ⟨main, hmain, hpatched⟩ := patch_eq_ok hpatch
  cases s.main?.symm.trans hmain
  rw [hpatched] at hpatch told
  exact ⟨hpatch, told⟩

end Link

/-- Inlining that succeeds passes over main as long as it has a call. -/
theorem first_pass [KeyOrder] {i : Inliner} {main : Function} {n : Nat} (h : (i.inlineMain m).replaced = .ok n)
    (hmain : m.main? = some main) (hcalls : main.hasCalls = true) :
    ∃ lines, (i.pass m main).result = .ok lines ∧ ∀ ev ∈ (i.pass m main).log, ev ∈ (i.inlineMain m).log := by
  have check := checkCallGraph_of_inlineMain h
  rw [Inliner.inlineMain, check] at h ⊢
  change (Inliner.passes (Inliner.passLimit m) 0 i m).replaced = .ok n at h
  change ∃ lines, _ ∧ ∀ ev ∈ _, ev ∈ (Inliner.passes (Inliner.passLimit m) 0 i m).log
  generalize Inliner.passLimit m = fuel at h ⊢
  cases fuel with
  | zero => cases h
  | succ fuel =>
    simp only [Inliner.passes, hmain, if_pos hcalls] at h ⊢
    cases hpass : (i.pass m main).result with
    | error e =>
      rw [hpass] at h
      cases h
    | ok lines =>
      exact ⟨lines, rfl, fun ev hev => List.mem_append_left _ hev⟩

/-- A link succeeds only if the wrapper's main mentions the placeholder. Each line of it that
    calls the kernel once the kernel's name stands for the placeholder is replaced by a copy of
    the kernel's body; and a call of the placeholder is such a line if no equals sign is in the
    placeholder or the kernel's name, and no quotation mark in that name. -/
theorem linked_copies_kernel [KeyOrder] (h : (linkModules o kernel wrapper).result = .ok out) :
    ∃ main m, wrapper.main? = some main ∧ Link.patched o kernel wrapper = .ok m ∧
      (∃ l ∈ main.lines, o.placeholder ∈ l.ids) ∧
      (∀ before l after, main.lines = before ++ l :: after →
        let put := Line.replaceId o.placeholder out.stats.kernel
        (put l).Calls out.stats.kernel → ∃ call f copy lines, Call.ofLine (put l) = .ok call ∧
          f.name = .ok out.stats.kernel ∧
          ((Inliner.ofPrefix o.kernelPrefix).pass m ⟨main.lines.map put⟩).result = .ok lines ∧
          Placed o.kernelPrefix m (before.map put) call (after.map put) f copy lines ∧
          .copying (put l) out.stats.kernel copy ∈ (linkModules o kernel wrapper).log) ∧
      ('=' ∉ o.placeholder → '=' ∉ out.stats.kernel → '"' ∉ out.stats.kernel → ∀ l : Line, l.Calls o.placeholder →
        (l.replaceId o.placeholder out.stats.kernel).Calls out.stats.kernel) := by
  obtain ⟨s⟩ := linkModules_eq_ok h
  obtain ⟨hpatch, hlog⟩ := Link.patch_of_link h s
  obtain ⟨p⟩ := spliced_of_ok s.splice
  have hmain := Module.main?_setMain s.main? (s.main.lines.map (Line.replaceId o.placeholder out.stats.kernel))
  refine ⟨s.main, s.joined.setMain (s.main.lines.map (Line.replaceId o.placeholder out.stats.kernel)),
    p.main?_eq ▸ s.main?, ?_, Link.placeholder_of_patch hpatch s.main?, fun before l after hsplit => ?_,
    fun hold hnew hquote l hl => hl.replaceId hold hnew ?_⟩
  · rw [Link.patched, s.kernelId, s.splice]
    exact hpatch
  · dsimp only
    rintro ⟨hl, call, hline, hcallee⟩
    have lines : s.main.lines.map (Line.replaceId o.placeholder out.stats.kernel) =
        before.map (Line.replaceId o.placeholder out.stats.kernel) ++
          l.replaceId o.placeholder out.stats.kernel :: after.map (Line.replaceId o.placeholder out.stats.kernel) := by
      rw [hsplit, List.map_append, List.map_cons]
    have hcalls : (⟨s.main.lines.map (Line.replaceId o.placeholder out.stats.kernel)⟩ : Function).hasCalls = true :=
      List.any_eq_true.mpr ⟨_, by rw [lines]; exact List.mem_append_right _ (List.mem_cons_self ..), hl⟩
    obtain ⟨after', hpass, htold⟩ := first_pass s.inlining hmain hcalls
    rw [lines] at hpass htold hlog ⊢
    obtain ⟨call', f, copy, hline', placed, hcopying⟩ := pass_places hpass hl
    cases hline.symm.trans hline'
    rw [hcallee] at hcopying
    exact ⟨call, f, copy, after', hline, hcallee ▸ (Module.plain_of_resolve placed.callee).2, hpass, placed,
      hlog _ (htold _ hcopying)⟩
  · obtain ⟨-, -, -, k, -, name, hname, heq⟩ := listed_of_kernel s.kernelId
    rw [heq] at hnew hquote ⊢
    have new := isName_prefixed s.valid (Line.isIdent_of_mem_rhsIds hname) hnew
    refine ⟨new.sigil, fun c hc => ?_⟩
    have plain : c ≠ '"' := fun he => hquote (he ▸ hc)
    simp [Text.endsIdent, new.noBlank c hc, plain]

/-- A kernel that adds its argument to itself. -/
def Link.addingKernel : Module :=
  ⟨[⟨.header, []⟩, ⟨.decorations, []⟩, ⟨.definitions, [⟨"%uint = OpTypeInt 32 0".toList⟩]⟩,
    ⟨.function, ["%k = OpFunction %uint None %fn", "%x = OpFunctionParameter %uint", "%l = OpLabel",
      "%y = OpIAdd %uint %x %x", "OpReturnValue %y", "OpFunctionEnd"].map fun s => ⟨s.toList⟩⟩]⟩

/-- A wrapper with this line in main. -/
def Link.mentioningWrapper (line : Line) : Module :=
  ⟨[⟨.header, [⟨"%RS_KERNELS = OpString \"%k \"".toList⟩]⟩, ⟨.decorations, []⟩,
    ⟨.definitions, [⟨"%uint = OpTypeInt 32 0".toList⟩]⟩,
    ⟨.globalVariables, [⟨"%buf = OpVariable %ptr Uniform".toList⟩]⟩,
    ⟨.main, [⟨"%main = OpFunction %void None %fv".toList⟩, ⟨"%in = OpLoad %uint %buf".toList⟩, line,
      ⟨"OpReturn".toList⟩, ⟨"OpFunctionEnd".toList⟩]⟩]⟩

attribute [local instance] KeyOrder.listed

/-- Main calls the placeholder, and the call is replaced by a copy of the kernel. -/
theorem linked_copies_kernel_called :
    let call : Line := ⟨"%r = OpFunctionCall %uint %RS_SPIRV_DUMMY_ %in".toList⟩
    ∃ out, (linkModules .standard Link.addingKernel (Link.mentioningWrapper call)).result = .ok out ∧
      out.stats.kernel = "%rs_linker_k".toList ∧
      ∃ copy, .copying ⟨"%r = OpFunctionCall %uint %rs_linker_k %in".toList⟩ "%rs_linker_k".toList copy ∈
        (linkModules .standard Link.addingKernel (Link.mentioningWrapper call)).log := by
  intro call
  have ok : ((linkModules .standard Link.addingKernel (Link.mentioningWrapper call)).result.map
      fun out => out.stats.kernel) = .ok "%rs_linker_k".toList := by
    decide +kernel
  obtain ⟨out, hout, hkernel⟩ := map_eq_ok.mp ok
  refine ⟨out, hout, hkernel, ?_⟩
  obtain ⟨main, m, hmain, -, -, copies, calls⟩ := linked_copies_kernel hout
  rw [hkernel] at copies calls
  have callsKernel := calls (by decide) (by decide) (by decide) call (by decide +kernel)
  cases hmain
  obtain ⟨-, -, copy, -, -, -, -, -, hcopying⟩ := copies [_, _] call [_, _] rfl callsKernel
  exact ⟨copy, hcopying⟩

/-- Main stores the placeholder and calls nothing, and the kernel's code is not in the output. -/
theorem linked_without_kernel :
    let store : Line := ⟨"OpStore %buf %RS_SPIRV_DUMMY_".toList⟩
    (∀ f ∈ (Link.mentioningWrapper store).main?, ∀ l ∈ f.lines, l.isCall = false) ∧
    ∃ out, (linkModules .standard Link.addingKernel (Link.mentioningWrapper store)).result = .ok out ∧
      out.stats.inlinedCalls = 0 ∧ ∀ l ∈ out.module.lines, l.opcode? ≠ some "OpIAdd".toList := by
  intro store
  have ok : ((linkModules .standard Link.addingKernel (Link.mentioningWrapper store)).result.map
      fun out => (out.stats.inlinedCalls, decide (∀ l ∈ out.module.lines, l.opcode? ≠ some "OpIAdd".toList))) =
        .ok (0, true) := by
    decide +kernel
  obtain ⟨out, hout, heq⟩ := map_eq_ok.mp ok
  obtain ⟨calls, code⟩ := Prod.mk.inj heq
  exact ⟨by decide +kernel, out, hout, calls, of_decide_eq_true code⟩

end SpirvLink
