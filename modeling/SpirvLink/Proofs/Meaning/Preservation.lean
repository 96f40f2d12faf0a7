/-
  SpirvLink.Proofs.Meaning.Preservation — inlining keeps the meaning of main.

  A run carries an outcome of main to the new module (`means_of_runs`). Where inlining
  succeeds main has an outcome to begin with (`exists_means_of_runs`), and a module has at
  most one, so the new module has no other outcome than the old one
  (`inlining_preserves_meaning`).
-/

import SpirvLink.Proofs.Meaning.Progress

namespace SpirvLink

open Semantics

section Preservation

variable {V : Type} {I : Interpretation V} {G : Text → V} {p : Text} {m : Module} {main : Function}
  {calls last : List Line} {arguments : List V}

/-- A run keeps the parameters of main, and an outcome that main has. -/
theorem means_of_runs [KeyOrder] (w : m.WellScoped) (hmain : m.main? = some main) (h : Runs p m [] main.lines calls last)
    (I : Interpretation V) (G : Text → V) (arguments : List V) :
    (⟨last⟩ : Function).parameterIds = main.parameterIds ∧
      ∀ out, Means m I G arguments out → Means (m.setMain last) I G arguments out := by
  obtain ⟨q, hq, start⟩ := Standing.start w hmain
  obtain ⟨q', copied, hlast, standing, params, kept⟩ := Runs.standing (I := I) (G := G) w h (by rw [hq]) start
  have lines : q'.function = ⟨last⟩ := by rw [← hlast]
  have quiet := h.clean
  rw [← hlast] at quiet
  refine ⟨by rw [← lines, params, hq], ?_⟩
  rintro out ⟨main', depth, hmain', hout⟩
  obtain rfl := Option.some.inj (hmain'.symm.trans hmain)
  rw [← hq] at hout
  have after := standing.invoke_setMain hmain quiet (kept depth arguments [] out hout)
  rw [hlast] at after
  exact ⟨q'.function, depth, by rw [lines, Module.main?_setMain hmain], after⟩

/-- Main has an outcome where a run leads from it. -/
theorem exists_means_of_runs [KeyOrder] (w : m.WellScoped)
    (readable : ∀ f ∈ m.functions, ∀ l ∈ f.lines, l.isCall = true → ∃ call, Call.ofLine l = .ok call)
    (hmain : m.main? = some main) (h : Runs p m [] main.lines calls last)
    (hlen : arguments.length = main.parameterIds.length) : ∃ out, Means m I G arguments out := by
  have hf : main ∈ m.functions := Module.mem_functions (Module.main_mem hmain) rfl
  obtain ⟨n, unfolds⟩ := h.unfolds w (fun l hl => w.spaced l (Module.mem_lines_of_function hf hl))
    fun l hl x hx => not_named_of_argument w hf hl hx
  obtain ⟨depth, completes⟩ := unfolds.completes (I := I) (G := G) w readable
  have hcalls : ∀ l ∈ main.bodyLines, Completes m (invoke I m (globals m G) depth) l := by
    intro l hl hcall
    have hl := Function.bodyLines_subset hl
    obtain ⟨call, hline⟩ := readable main hf l hl hcall
    obtain ⟨f, hcallee, hrun⟩ := completes _ (List.mem_filterMap.mpr ⟨l, hl, site?_of_call hcall hline⟩)
    exact ⟨call, f, hline, hcallee, hrun⟩
  obtain ⟨out, hout, -⟩ := invoke_isSome (T := []) w hf hlen hcalls
  exact ⟨out, main, depth + 1, hmain, hout⟩

/-- Inlining keeps the meaning of main: whatever instructions result in and whatever the
    global identifiers stand for, main does the same before and after, and returns the same.
    It does something whenever it is given as many arguments as it has parameters. -/
theorem inlining_preserves_meaning [KeyOrder] (w : m.WellScoped) (hmain : m.main? = some main) {n : Nat} :
    let run := (Inliner.ofPrefix p).inlineMain m
    run.replaced = .ok n → ∀ (V : Type) (I : Interpretation V) (G : Text → V) (arguments : List V),
      (∀ out, Means run.module I G arguments out ↔ Means m I G arguments out) ∧
        (arguments.length = main.parameterIds.length → ∃ out, Means run.module I G arguments out) := by
  intro run hrun V I G arguments
  have readable : ∀ f ∈ m.functions, ∀ l ∈ f.lines, l.isCall = true → ∃ call, Call.ofLine l = .ok call := by
    intro f hf
    obtain ⟨-, callees, h⟩ := readable_of_inlineMain hrun f hf
    exact Function.readable_of_callees h
  obtain ⟨calls, last, hruns, hmodule, -⟩ := runs_of_inlineMain w.tidy hmain hrun
  obtain ⟨params, forward⟩ := means_of_runs w hmain hruns I G arguments
  rw [← hmodule] at forward
  have total : arguments.length = main.parameterIds.length → ∃ out, Means m I G arguments out :=
    exists_means_of_runs w readable hmain hruns
  refine ⟨fun out => ⟨fun h => ?_, forward out⟩, fun hlen => (total hlen).imp forward⟩
  -- main takes as many arguments as before, so it had an outcome, and it can only be this one
  have arity : arguments.length = main.parameterIds.length := by
    have h := h
    rw [hmodule] at h
    obtain ⟨main', depth, hmain', hout⟩ := h
    obtain rfl := Option.some.inj (hmain'.symm.trans (Module.main?_setMain hmain last))
    cases depth with
    | zero => cases hout
    | succ depth =>
      rw [← params]
      exact (invoke_succ_eq_some.mp hout).1.symm
  obtain ⟨out', h'⟩ := total arity
  rwa [Means.unique h (forward out' h')]

attribute [local instance] KeyOrder.listed

/-- Main still adds one twice to what it loads, whatever adding does. -/
theorem inlining_preserves_meaning_nested :
    let m := Module.nestedCalls
    let run := (Inliner.ofPrefix "rs_linker_".toList).inlineMain m
    let I : Interpretation Nat := fun entry trace => entry.operands.length + 2 * trace.length
    m.WellScoped ∧ m.main?.isSome = true ∧ run.replaced = .ok 3 ∧
      ∃ out, Means m I List.length [] out ∧ Means run.module I List.length [] out ∧
        out.trace.map Entry.opcode = ["OpLoad".toList, "OpIAdd".toList, "OpIAdd".toList, "OpStore".toList] := by
  intro m run I
  have hrun : run.replaced = .ok 3 := by decide +kernel
  have meaning := inlining_preserves_meaning Module.nestedCalls_wellScoped rfl hrun Nat I List.length []
  obtain ⟨main, hmain⟩ : ∃ main, m.main? = some main := ⟨_, rfl⟩
  have trace : (invoke I m (globals m List.length) 3 main [] []).map (fun out => out.trace.map Entry.opcode) =
      some ["OpLoad".toList, "OpIAdd".toList, "OpIAdd".toList, "OpStore".toList] := by
    cases hmain
    decide +kernel
  obtain ⟨out, hout, hopcodes⟩ := Option.map_eq_some_iff.mp trace
  have before : Means m I List.length [] out := ⟨main, 3, hmain, hout⟩
  exact ⟨Module.nestedCalls_wellScoped, rfl, hrun, out, before, (meaning.1 out).mpr before, hopcodes⟩

end Preservation

end SpirvLink
