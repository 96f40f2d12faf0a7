/-
  SpirvLink.Proofs.CallGraph.Stack — the search of the call graph as a loop over a stack.

  The loop keeps a stack of frames, each a node and the calls of it that are still to be
  followed, and takes one call a step: `Search.step`. A node on the stack is being searched,
  a finished one reaches no cycle, and every other one is unvisited. `Search.Ends` tells
  that the loop comes to an end and with what.

  `ends_visit`: from the frame of a node the loop does what `visit` computes, so the bound
  that `visit` counts down never cuts a search off. `ends_visitAll`: the whole loop ends,
  with the finished nodes or the cycle that `visitAll` gives.
-/

import SpirvLink.Proofs.CallGraph

namespace SpirvLink

namespace CallGraph

/-- A node being searched and the calls of it that are still to be followed. -/
structure Frame where
  node : CallNode
  rest : List Text

/-- The search between two steps; the newest frame comes first. -/
structure Search where
  roots : List CallNode
  stack : List Frame
  finished : List CallNode

namespace Search

/-- The loop before its first step. -/
def start (g : CallGraph) : Search :=
  ⟨g, [], []⟩

/-- One step of the loop: none where nothing is left to search. -/
def step (g : CallGraph) : Search → Except LinkError (Option Search)
  | ⟨[], [], _⟩ => .ok none
  | ⟨n :: roots, [], finished⟩ =>
    if finished.contains n then .ok (some ⟨roots, [], finished⟩)
    else .ok (some ⟨roots, [⟨n, n.callees⟩], finished⟩)
  | ⟨roots, ⟨n, []⟩ :: frames, finished⟩ => .ok (some ⟨roots, frames, n :: finished⟩)
  | ⟨roots, ⟨n, callee :: rest⟩ :: frames, finished⟩ =>
    match target? g callee with
    | none => .ok (some ⟨roots, ⟨n, rest⟩ :: frames, finished⟩)
    | some t =>
      if (n :: frames.map Frame.node).contains t then
        .error (.recursiveCallChain (chain (n :: frames.map Frame.node) t callee))
      else if finished.contains t then .ok (some ⟨roots, ⟨n, rest⟩ :: frames, finished⟩)
      else .ok (some ⟨roots, ⟨t, t.callees⟩ :: ⟨n, rest⟩ :: frames, finished⟩)

/-- The loop comes to an end after finitely many steps, with the finished nodes or an error. -/
inductive Ends (g : CallGraph) : Search → Except LinkError (List CallNode) → Prop
  | done {s : Search} : step g s = .ok none → Ends g s (.ok s.finished)
  | stop {s : Search} {e : LinkError} : step g s = .error e → Ends g s (.error e)
  | next {s s' : Search} {found : Except LinkError (List CallNode)} :
      step g s = .ok (some s') → Ends g s' found → Ends g s found

variable {g : CallGraph} {s : Search} {found found' : Except LinkError (List CallNode)}

/-- The loop comes to one end only. -/
theorem Ends.unique (h : Ends g s found) (h' : Ends g s found') : found = found' := by
  induction h with
  | done hs =>
    cases h' with
    | done => rfl
    | stop hs' => cases hs.symm.trans hs'
    | next hs' => cases hs.symm.trans hs'
  | stop hs =>
    cases h' with
    | done hs' => cases hs.symm.trans hs'
    | stop hs' =>
      cases hs.symm.trans hs'
      rfl
    | next hs' => cases hs.symm.trans hs'
  | next hs _ ih =>
    cases h' with
    | done hs' => cases hs.symm.trans hs'
    | stop hs' => cases hs.symm.trans hs'
    | next hs' h' =>
      cases hs.symm.trans hs'
      exact ih h'

/-! ## The steps -/

section

variable {roots finished : List CallNode} {frames : List Frame} {n t : CallNode} {callee : Text} {rest : List Text}

theorem step_return : step g ⟨roots, ⟨n, []⟩ :: frames, finished⟩ = .ok (some ⟨roots, frames, n :: finished⟩) := by
  cases roots <;> rfl

theorem step_unknown (h : target? g callee = none) :
    step g ⟨roots, ⟨n, callee :: rest⟩ :: frames, finished⟩ = .ok (some ⟨roots, ⟨n, rest⟩ :: frames, finished⟩) := by
  cases roots <;> simp only [step, h]

theorem step_cycle (h : target? g callee = some t) (ht : t ∈ n :: frames.map Frame.node) :
    step g ⟨roots, ⟨n, callee :: rest⟩ :: frames, finished⟩ =
      .error (.recursiveCallChain (chain (n :: frames.map Frame.node) t callee)) := by
  cases roots <;> simp only [step, h] <;> rw [if_pos (by simpa using ht)]

theorem step_finished (h : target? g callee = some t) (ht : t ∉ n :: frames.map Frame.node) (hf : t ∈ finished) :
    step g ⟨roots, ⟨n, callee :: rest⟩ :: frames, finished⟩ = .ok (some ⟨roots, ⟨n, rest⟩ :: frames, finished⟩) := by
  cases roots <;> simp only [step, h] <;> rw [if_neg (by simpa using ht), if_pos (by simpa using hf)]

theorem step_enter (h : target? g callee = some t) (ht : t ∉ n :: frames.map Frame.node) (hf : t ∉ finished) :
    step g ⟨roots, ⟨n, callee :: rest⟩ :: frames, finished⟩ =
      .ok (some ⟨roots, ⟨t, t.callees⟩ :: ⟨n, rest⟩ :: frames, finished⟩) := by
  cases roots <;> simp only [step, h] <;> rw [if_neg (by simpa using ht), if_neg (by simpa using hf)]

end

/-! ## The loop does what the recursion computes -/

/-- The loop goes on from the nodes found, or has ended with the error found. -/
def Continues (g : CallGraph) (next : List CallNode → Search) (found : Except LinkError (List CallNode)) :
    Except LinkError (List CallNode) → Prop
  | .ok after => Ends g (next after) found
  | .error e => found = .error e

theorem Continues.bind {next next' : List CallNode → Search} {first : Except LinkError (List CallNode)}
    {rest : List CallNode → Except LinkError (List CallNode)} (h : Continues g next found (first >>= rest))
    (hs : ∀ mid, Continues g next found (rest mid) → Ends g (next' mid) found) : Continues g next' found first := by
  cases first with
  | error e => exact h
  | ok mid => exact hs mid h

section

variable {roots : List CallNode} {frames : List Frame} {n : CallNode} {fuel : Nat}

/-- Following the calls that a frame has left, where the search of a called node is known. -/
theorem ends_calls (path : Path g (n :: frames.map Frame.node))
    (called : ∀ (t : CallNode) (rest : List Text) (finished : List CallNode),
      Path g (t :: n :: frames.map Frame.node) →
      Continues g (fun after => ⟨roots, ⟨n, rest⟩ :: frames, after⟩) found
        (visit g fuel (n :: frames.map Frame.node) finished t) →
      Ends g ⟨roots, ⟨t, t.callees⟩ :: ⟨n, rest⟩ :: frames, finished⟩ found) :
    ∀ (rest : List Text) (finished : List CallNode), rest ⊆ n.callees →
      Continues g (fun after => ⟨roots, ⟨n, []⟩ :: frames, after⟩) found
        (rest.foldlM (followCall g (visit g fuel (n :: frames.map Frame.node)) (n :: frames.map Frame.node)) finished) →
      Ends g ⟨roots, ⟨n, rest⟩ :: frames, finished⟩ found := by
  intro rest
  induction rest with
  | nil => exact fun finished _ h => h
  | cons callee rest ih =>
    intro finished sub h
    rw [List.foldlM_cons] at h
    have later : ∀ mid, Continues g (fun after => ⟨roots, ⟨n, []⟩ :: frames, after⟩) found
        (rest.foldlM (followCall g (visit g fuel (n :: frames.map Frame.node)) (n :: frames.map Frame.node)) mid) →
        Ends g ⟨roots, ⟨n, rest⟩ :: frames, mid⟩ found :=
      fun mid => ih mid fun c hc => sub (List.mem_cons_of_mem _ hc)
    cases ht : target? g callee with
    | none =>
      rw [followCall_none ht] at h
      exact .next (step_unknown ht) (later finished h)
    | some t =>
      by_cases hpath : t ∈ n :: frames.map Frame.node
      · rw [followCall_path ht hpath] at h
        cases h
        exact .stop (step_cycle ht hpath)
      · by_cases hfin : t ∈ finished
        · rw [followCall_finished ht hpath hfin] at h
          exact .next (step_finished ht hpath hfin) (later finished h)
        · rw [followCall_search ht hpath hfin] at h
          exact .next (step_enter ht hpath hfin)
            (called t rest finished (path.cons (sub (List.mem_cons_self ..)) ht hpath) (h.bind later))

end

/-- From the frame of a node the loop comes to what `visit` computes. A path holds each node
    once, so the bound is not used up. -/
theorem ends_visit : ∀ (fuel : Nat) (n : CallNode) (roots : List CallNode) (frames : List Frame)
    (finished : List CallNode), Path g (n :: frames.map Frame.node) → g.length ≤ fuel + frames.length →
    Continues g (fun after => ⟨roots, frames, after⟩) found (visit g fuel (frames.map Frame.node) finished n) →
    Ends g ⟨roots, ⟨n, n.callees⟩ :: frames, finished⟩ found := by
  intro fuel
  induction fuel with
  | zero =>
    intro n roots frames finished path enough
    have := path.length_le
    simp only [List.length_cons, List.length_map] at this
    omega
  | succ fuel ih =>
    intro n roots frames finished path enough h
    rw [visit_succ] at h
    refine ends_calls path (fun t rest finished path' h' => ?_) n.callees finished (fun _ hc => hc)
      (h.bind fun mid h => .next step_return h)
    exact ih t roots (⟨n, rest⟩ :: frames) finished path' (by simp only [List.length_cons]; omega) h'

/-- The loop ends with what the search of all nodes computes. -/
theorem ends_visitAll : ∀ (roots finished : List CallNode), roots ⊆ g →
    Ends g ⟨roots, [], finished⟩ (visitAll g finished roots) := by
  intro roots
  induction roots with
  | nil => exact fun finished _ => .done rfl
  | cons n roots ih =>
    intro finished sub
    have later : ∀ mid, Ends g ⟨roots, [], mid⟩ (visitAll g mid roots) :=
      fun mid => ih mid fun c hc => sub (List.mem_cons_of_mem _ hc)
    rw [visitAll]
    by_cases hfin : finished.contains n = true
    · rw [if_pos hfin]
      exact .next (by rw [step, if_pos hfin]) (later finished)
    · rw [if_neg hfin]
      have path : Path g [n] :=
        ⟨List.nodup_singleton n, List.cons_subset.mpr ⟨sub (List.mem_cons_self ..), List.nil_subset _⟩, .singleton n⟩
      refine .next (by rw [step, if_neg hfin]) (ends_visit g.length n roots [] finished path (by simp) ?_)
      cases hv : visit g g.length [] finished n with
      | error e =>
        rw [List.map_nil, hv]
        rfl
      | ok mid =>
        rw [List.map_nil, hv]
        exact later mid

theorem ends_start (g : CallGraph) : Ends g (start g) (visitAll g [] g) :=
  ends_visitAll g [] fun _ h => h

end Search

end CallGraph

end SpirvLink
