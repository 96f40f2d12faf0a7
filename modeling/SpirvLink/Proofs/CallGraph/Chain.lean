/-
  SpirvLink.Proofs.CallGraph.Chain — the check of the call graph, and the chain it reports.

  Where every function has a name of its own and its calls can be read, the check comes to
  an end, passes exactly when no function reaches itself, and otherwise names functions
  that call one another in a circle (`CallCycle`): `checkCallGraph_exact`.
-/

import Mathlib.Data.List.Chain
import Mathlib.Data.List.TakeWhile
import SpirvLink.Proofs.CallGraph.Latest
import SpirvLink.Proofs.CallGraph.Stack

namespace SpirvLink

/-! ## The chain that a closed cycle is reported with -/

namespace CallGraph

variable {g : CallGraph} {path : List CallNode} {n t : CallNode} {callee : Text}

/-- The chain names the part of the path from the target on, oldest node first. -/
theorem chain_eq (hp : Path g (n :: path)) (ht : t ∈ n :: path) (callee : Text) : ∃ later,
    later ++ [t] <+: n :: path ∧
      chain (n :: path) t callee = (t :: later.reverse).map CallNode.name ++ [callee] := by
  obtain ⟨later, earlier, hsplit⟩ := List.append_of_mem ht
  have others : ∀ m ∈ earlier.reverse, (m != t) = true := by
    have hnodup := hsplit ▸ hp.nodup
    have hnot : t ∉ earlier := (List.nodup_cons.mp (List.nodup_append.mp hnodup).2.1).1
    intro m hm
    exact bne_iff_ne.mpr fun heq => hnot (heq ▸ List.mem_reverse.mp hm)
  refine ⟨later, ⟨earlier, by rw [hsplit, List.append_assoc, List.singleton_append]⟩, ?_⟩
  rw [chain, hsplit, List.reverse_append, List.reverse_cons, List.append_assoc,
    List.dropWhile_append_of_pos others, List.singleton_append, List.dropWhile_cons_of_neg (by simp)]

theorem chain_newest {later : List CallNode} (h : later ++ [t] <+: n :: path) :
    (t :: later.reverse).getLast? = some n := by
  cases later with
  | nil =>
    obtain rfl := (List.cons_prefix_cons.mp h).1
    rfl
  | cons first later =>
    obtain rfl := (List.cons_prefix_cons.mp h).1
    rw [List.reverse_cons, ← List.cons_append, List.getLast?_concat]

end CallGraph

namespace Module

variable {m : Module} {g : CallGraph}

/-- The first function calls the second, and both are functions of the module with a body. -/
def CallsFunction (m : Module) (caller callee : Text) : Prop :=
  m.Calls caller callee ∧ ∃ f ∈ m.functions, f.name = .ok callee

/-- Functions that call one another in a circle: each name but the last one is that of a
    function that calls the next, and the last name is the first one again. -/
structure CallCycle (m : Module) (names : List Text) : Prop where
  two : 2 ≤ names.length
  closed : names.head? = names.getLast?
  once : names.dropLast.Nodup
  calls : names.IsChain m.Calls

/-- A call to no function of the module is on no cycle. -/
theorem callsFunction_acyclic_iff :
    (∀ name, ¬ Relation.TransGen m.CallsFunction name name) ↔ m.CallsAcyclic := by
  have bodies : ∀ {a b : Text}, Relation.TransGen m.Calls a b → (∃ f ∈ m.functions, f.name = .ok b) →
      Relation.TransGen m.CallsFunction a b := by
    intro a b hrun
    induction hrun with
    | single hcall => exact fun hb => .single ⟨hcall, hb⟩
    | tail _ hcall ih =>
      obtain ⟨f, hf, hname, -⟩ := id hcall
      exact fun hb => (ih ⟨f, hf, hname⟩).tail ⟨hcall, hb⟩
  constructor
  · intro h name hc
    obtain ⟨_, ⟨f, hf, hname, -⟩, -⟩ := Relation.TransGen.head'_iff.mp hc
    exact h name (bodies hc ⟨f, hf, hname⟩)
  · exact fun h name hc => h name (Relation.TransGen.mono (fun _ _ hcall => hcall.1) _ _ hc)

/-- A cycle closed by the search is one of functions that call one another. -/
theorem callCycle_of_closes (hg : List.Forall₂ Describes m.functions g) (distinct : (g.map CallNode.name).Nodup)
    {e : LinkError} (h : CallGraph.Closes g e) : ∃ chain, e = .recursiveCallChain chain ∧ m.CallCycle chain := by
  obtain ⟨n, path, t, callee, he, hp, ht, hc, htarget⟩ := h
  obtain ⟨later, front, hchain⟩ := CallGraph.chain_eq hp ht callee
  obtain rfl : t.name = callee := CallGraph.target?_name htarget
  have oldestFirst : (t :: later.reverse) = (later ++ [t]).reverse := by
    rw [List.reverse_append, List.reverse_singleton, List.singleton_append]
  have nodes : ∀ u ∈ t :: later.reverse, u ∈ g := by
    intro u hu
    rw [oldestFirst, List.mem_reverse] at hu
    exact hp.nodes (front.subset hu)
  have once : (t :: later.reverse).Nodup := by
    rw [oldestFirst, List.nodup_reverse]
    exact hp.nodup.sublist front.sublist
  have calls : (t :: later.reverse).IsChain fun caller callee => m.Calls caller.name callee.name := by
    rw [oldestFirst, List.isChain_reverse]
    have called := List.IsChain.prefix hp.calls front
    exact called.imp_of_mem_imp fun u v _ hv he => calls_of_edge hg (hp.nodes (front.subset hv)) he
  refine ⟨_, he, ?_⟩
  rw [hchain]
  refine ⟨by simp, ?_, ?_, List.isChain_append.mpr ⟨(List.isChain_map _).mpr calls, .singleton _, ?_⟩⟩
  · rw [List.getLast?_concat, List.map_cons, List.cons_append, List.head?_cons]
  · rw [List.dropLast_concat]
    exact once.map_on fun u hu v hv => List.inj_on_of_nodup_map distinct (nodes u hu) (nodes v hv)
  · intro caller hcaller target htarget'
    rw [List.getLast?_map, CallGraph.chain_newest front] at hcaller
    cases hcaller
    cases htarget'
    exact calls_of_edge hg (hp.nodes (List.mem_cons_self ..)) ⟨t.name, hc, htarget⟩

/-- Where every function has a name of its own and its calls can be read, the check ends,
    and it ends as the loop over a stack does; it passes exactly when no function reaches itself through
    calls of functions; and it fails only with functions that call one another in a circle. -/
theorem checkCallGraph_exact {m : Module} (readable : ∀ f ∈ m.functions, f.Readable)
    (distinct : (m.functions.map Function.name).Nodup) :
    (∃ g found, CallGraph.ofModule m = .ok g ∧ (∀ found', CallGraph.Search.Ends g (.start g) found' ↔ found' = found) ∧
      m.checkCallGraph = discard found) ∧
    (m.checkCallGraph = .ok () ↔ ∀ name, ¬ Relation.TransGen m.CallsFunction name name) ∧
    ∀ e, m.checkCallGraph = .error e → ∃ chain, e = .recursiveCallChain chain ∧ m.CallCycle chain := by
  obtain ⟨g, hg⟩ := ofModule_eq_ok readable
  have hd := describes_of_ofModule hg
  have check : m.checkCallGraph = discard (CallGraph.visitAll g [] g) := by
    rw [checkCallGraph, hg]
    rfl
  have ends := CallGraph.Search.ends_start g
  refine ⟨⟨g, _, hg, fun found => ⟨fun h => h.unique ends, fun h => h ▸ ends⟩, check⟩, ?_, fun e he => ?_⟩
  · rw [callsFunction_acyclic_iff, checkCallGraph_eq_ok_iff readable distinct]
  · rw [check] at he
    cases hv : CallGraph.visitAll g [] g with
    | ok finished =>
      rw [hv] at he
      cases he
    | error e' =>
      rw [hv] at he
      cases he
      exact callCycle_of_closes hd (names_nodup hd distinct) (CallGraph.closes_of_visitAll hv)

/-- Main calls a function that calls another one, which calls it back. -/
def mutualCalls : Module :=
  ⟨[⟨.function, [⟨"%a = OpFunction %u".toList⟩, ⟨"%la = OpLabel".toList⟩, ⟨"%x = OpFunctionCall %u %b".toList⟩,
      ⟨"OpReturnValue %x".toList⟩, ⟨"OpFunctionEnd".toList⟩]⟩,
    ⟨.function, [⟨"%b = OpFunction %u".toList⟩, ⟨"%lb = OpLabel".toList⟩, ⟨"%y = OpFunctionCall %u %extern".toList⟩,
      ⟨"%z = OpFunctionCall %u %a".toList⟩, ⟨"OpReturnValue %z".toList⟩, ⟨"OpFunctionEnd".toList⟩]⟩,
    ⟨.main, [⟨"%main = OpFunction %void".toList⟩, ⟨"%l = OpLabel".toList⟩, ⟨"%r = OpFunctionCall %u %a".toList⟩,
      ⟨"OpReturn".toList⟩, ⟨"OpFunctionEnd".toList⟩]⟩]⟩

theorem checkCallGraph_exact_mutual :
    (∀ f ∈ mutualCalls.functions, f.Readable) ∧ (mutualCalls.functions.map Function.name).Nodup ∧
      mutualCalls.checkCallGraph = .error (.recursiveCallChain ["%a".toList, "%b".toList, "%a".toList]) ∧
      mutualCalls.CallCycle ["%a".toList, "%b".toList, "%a".toList] ∧
      ¬ ∀ name, ¬ Relation.TransGen mutualCalls.CallsFunction name name := by
  have graph : CallGraph.ofModule mutualCalls = .ok
      [⟨0, "%a".toList, ["%b".toList]⟩, ⟨1, "%b".toList, ["%extern".toList, "%a".toList]⟩,
        ⟨2, "%main".toList, ["%a".toList]⟩] := by decide +kernel
  have distinct : (mutualCalls.functions.map Function.name).Nodup := by decide +kernel
  have check : mutualCalls.checkCallGraph = .error (.recursiveCallChain ["%a".toList, "%b".toList, "%a".toList]) := by
    decide +kernel
  obtain ⟨-, acyclic, cycle⟩ := checkCallGraph_exact (readable_of_ofModule graph) distinct
  obtain ⟨chain, hchain, hcycle⟩ := cycle _ check
  cases hchain
  refine ⟨readable_of_ofModule graph, distinct, check, hcycle, fun h => ?_⟩
  cases check.symm.trans (acyclic.mpr h)

end Module

end SpirvLink
