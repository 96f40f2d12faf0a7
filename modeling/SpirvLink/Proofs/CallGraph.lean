/-
  SpirvLink.Proofs.CallGraph — the search of the call graph is exact.

  A search that succeeds leaves the nodes in an order in which every call leads to an
  earlier finished node (`Settled`), so no node reaches itself; a search that fails has
  closed a cycle on its path (`Closes`). Together the search succeeds exactly when no
  node reaches itself (`visitAll_eq_ok_iff`).
-/

import Mathlib.Data.List.Nodup
import Mathlib.Data.List.Perm.Subperm
import Mathlib.Logic.Relation
import SpirvLink.CallGraph
import SpirvLink.Proofs.Success

namespace SpirvLink

namespace CallGraph

variable {g : CallGraph}

/-- A call of the first node reaches the second. -/
def Edge (g : CallGraph) (n t : CallNode) : Prop :=
  ∃ callee ∈ n.callees, target? g callee = some t

/-- No node reaches itself. -/
def Acyclic (g : CallGraph) : Prop :=
  ∀ n, ¬ Relation.TransGen (Edge g) n n

theorem target?_mem {callee : Text} {t : CallNode} (h : target? g callee = some t) : t ∈ g :=
  List.mem_reverse.mp (List.mem_of_find?_eq_some h)

theorem target?_name {callee : Text} {t : CallNode} (h : target? g callee = some t) : t.name = callee := by
  simpa using List.find?_some h

/-! ## Paths and finished nodes -/

/-- The nodes being searched, newest first: each one is called by the next. -/
structure Path (g : CallGraph) (path : List CallNode) : Prop where
  nodup : path.Nodup
  nodes : path ⊆ g
  calls : path.IsChain fun later earlier => Edge g earlier later

theorem Path.length_le {path : List CallNode} (h : Path g path) : path.length ≤ g.length :=
  (h.nodup.subperm h.nodes).length_le

/-- Every node of a path reaches its newest one. -/
theorem reaches_newest : ∀ {path : List CallNode} {n : CallNode},
    (n :: path).IsChain (fun later earlier => Edge g earlier later) →
    ∀ t ∈ n :: path, Relation.ReflTransGen (Edge g) t n
  | [], n, _, t, ht => by
    cases List.mem_singleton.mp ht
    exact .refl
  | m :: path, n, h, t, ht => by
    rcases List.mem_cons.mp ht with rfl | ht
    · exact .refl
    · rw [List.isChain_cons_cons] at h
      exact (reaches_newest h.2 t ht).tail h.1

/-- Finished nodes, the last one first: all calls of a node lead to nodes finished before it. -/
def Settled (g : CallGraph) : List CallNode → Prop
  | [] => True
  | n :: ns => n ∉ ns ∧ (∀ t, Edge g n t → t ∈ ns) ∧ Settled g ns

theorem Settled.closed : ∀ {ns : List CallNode}, Settled g ns → ∀ n ∈ ns, ∀ t, Edge g n t → t ∈ ns
  | m :: ns, h, n, hn, t, ht => by
    rcases List.mem_cons.mp hn with rfl | hn
    · exact List.mem_cons_of_mem _ (h.2.1 t ht)
    · exact List.mem_cons_of_mem _ (h.2.2.closed n hn t ht)

theorem Settled.reach_closed {ns : List CallNode} (h : Settled g ns) {n t : CallNode} (hn : n ∈ ns)
    (ht : Relation.ReflTransGen (Edge g) n t) : t ∈ ns := by
  induction ht with
  | refl => exact hn
  | tail _ he ih => exact h.closed _ ih _ he

theorem Settled.no_cycle : ∀ {ns : List CallNode}, Settled g ns →
    ∀ n ∈ ns, ¬ Relation.TransGen (Edge g) n n
  | m :: ns, h, n, hn, hc => by
    rcases List.mem_cons.mp hn with rfl | hn
    · obtain ⟨t, he, ht⟩ := Relation.TransGen.head'_iff.mp hc
      exact h.1 (h.2.2.reach_closed (h.2.1 t he) ht)
    · exact h.2.2.no_cycle n hn hc

/-! ## One search -/

/-- A failed search names a cycle: a node of its path calls a node of the path. -/
def Closes (g : CallGraph) (e : LinkError) : Prop :=
  ∃ n path t callee, e = .recursiveCallChain (chain (n :: path) t callee) ∧ Path g (n :: path) ∧
    t ∈ n :: path ∧ callee ∈ n.callees ∧ target? g callee = some t

theorem Closes.not_acyclic {e : LinkError} (h : Closes g e) : ¬ Acyclic g := by
  obtain ⟨n, path, t, callee, -, hp, ht, hm, he⟩ := h
  exact fun ha => ha n (Relation.TransGen.head' ⟨callee, hm, he⟩ (reaches_newest hp.calls t ht))

/-- What a search of a node does, given how it searches a node that is called. -/
def followCall (g : CallGraph) (search : List CallNode → CallNode → Except LinkError (List CallNode))
    (path : List CallNode) (finished : List CallNode) (callee : Text) : Except LinkError (List CallNode) :=
  match target? g callee with
  | none => .ok finished
  | some t =>
    if path.contains t then .error (.recursiveCallChain (chain path t callee))
    else if finished.contains t then .ok finished
    else search finished t

section

variable {search : List CallNode → CallNode → Except LinkError (List CallNode)}
  {path finished : List CallNode} {callee : Text} {t : CallNode}

theorem followCall_none (h : target? g callee = none) :
    followCall g search path finished callee = .ok finished := by
  simp only [followCall, h]

theorem followCall_path (h : target? g callee = some t) (ht : t ∈ path) :
    followCall g search path finished callee = .error (.recursiveCallChain (chain path t callee)) := by
  simp only [followCall, h]
  rw [if_pos (by simpa using ht)]

theorem followCall_finished (h : target? g callee = some t) (ht : t ∉ path) (hf : t ∈ finished) :
    followCall g search path finished callee = .ok finished := by
  simp only [followCall, h]
  rw [if_neg (by simpa using ht), if_pos (by simpa using hf)]

theorem followCall_search (h : target? g callee = some t) (ht : t ∉ path) (hf : t ∉ finished) :
    followCall g search path finished callee = search finished t := by
  simp only [followCall, h]
  rw [if_neg (by simpa using ht), if_neg (by simpa using hf)]

end

theorem visit_succ (g : CallGraph) (fuel : Nat) (path finished : List CallNode) (n : CallNode) :
    visit g (fuel + 1) path finished n =
      n.callees.foldlM (followCall g (visit g fuel (n :: path)) (n :: path)) finished >>= fun finished =>
        .ok (n :: finished) := rfl

/-- The nodes finished by a search are settled, hold those finished before and none of the
    path. -/
structure Grown (g : CallGraph) (path before after : List CallNode) : Prop where
  settled : Settled g after
  keeps : before ⊆ after
  apart : ∀ x ∈ path, x ∉ after

def Searched (g : CallGraph) (path before : List CallNode) (n : CallNode) :
    Except LinkError (List CallNode) → Prop
  | .ok after => Grown g path before after ∧ n ∈ after
  | .error e => Closes g e

def Followed (g : CallGraph) (path before : List CallNode) (callees : List Text) :
    Except LinkError (List CallNode) → Prop
  | .ok after => Grown g path before after ∧ ∀ c ∈ callees, ∀ t, target? g c = some t → t ∈ after
  | .error e => Closes g e

theorem Followed.cons {path before mid : List CallNode} {callee : Text} {callees : List Text}
    {found : Except LinkError (List CallNode)} (grown : Grown g path before mid)
    (first : ∀ t, target? g callee = some t → t ∈ mid) (h : Followed g path mid callees found) :
    Followed g path before (callee :: callees) found := by
  cases found with
  | error e => exact h
  | ok after =>
    refine ⟨⟨h.1.settled, fun _ hx => h.1.keeps (grown.keeps hx), h.1.apart⟩, fun c hc t ht => ?_⟩
    rcases List.mem_cons.mp hc with rfl | hc
    · exact h.1.keeps (first t ht)
    · exact h.2 c hc t ht

theorem Path.cons {n t : CallNode} {path : List CallNode} (hp : Path g (n :: path)) {callee : Text} (hc : callee ∈ n.callees)
    (ht : target? g callee = some t) (h : t ∉ n :: path) : Path g (t :: n :: path) :=
  ⟨List.nodup_cons.mpr ⟨h, hp.nodup⟩, List.cons_subset.mpr ⟨target?_mem ht, hp.nodes⟩,
    List.isChain_cons_cons.mpr ⟨⟨callee, hc, ht⟩, hp.calls⟩⟩

section Follow

variable {search : List CallNode → CallNode → Except LinkError (List CallNode)} {n : CallNode} {path : List CallNode}

theorem followCall_followed (hp : Path g (n :: path))
    (hs : ∀ before t, Path g (t :: n :: path) → Settled g before → t ∉ before →
      (∀ x ∈ n :: path, x ∉ before) → Searched g (n :: path) before t (search before t))
    {callee : Text} {before : List CallNode} (hc : callee ∈ n.callees) (hset : Settled g before)
    (hap : ∀ x ∈ n :: path, x ∉ before) :
    Followed g (n :: path) before [callee] (followCall g search (n :: path) before callee) := by
  have same : Grown g (n :: path) before before := ⟨hset, fun _ h => h, hap⟩
  -- The callee is the only one, so its target alone has to be finished.
  have only : ∀ {t : CallNode} {after : List CallNode}, target? g callee = some t → t ∈ after →
      ∀ c ∈ [callee], ∀ u, target? g c = some u → u ∈ after := by
    intro t after ht hmem c hc u hu
    rw [List.mem_singleton.mp hc, ht] at hu
    cases hu
    exact hmem
  cases ht : target? g callee with
  | none =>
    rw [followCall_none ht]
    refine ⟨same, fun c hc u hu => ?_⟩
    rw [List.mem_singleton.mp hc, ht] at hu
    cases hu
  | some t =>
    by_cases hpath : t ∈ n :: path
    · rw [followCall_path ht hpath]
      exact ⟨n, path, t, callee, rfl, hp, hpath, hc, ht⟩
    · by_cases hfin : t ∈ before
      · rw [followCall_finished ht hpath hfin]
        exact ⟨same, only ht hfin⟩
      · rw [followCall_search ht hpath hfin]
        have h := hs before t (hp.cons hc ht hpath) hset hfin hap
        revert h
        cases search before t with
        | error e => exact fun h => h
        | ok mid => exact fun h => ⟨h.1, only ht h.2⟩

theorem foldlM_followed (hp : Path g (n :: path))
    (hs : ∀ before t, Path g (t :: n :: path) → Settled g before → t ∉ before →
      (∀ x ∈ n :: path, x ∉ before) → Searched g (n :: path) before t (search before t)) :
    ∀ (callees : List Text) (before : List CallNode), callees ⊆ n.callees → Settled g before →
      (∀ x ∈ n :: path, x ∉ before) →
      Followed g (n :: path) before callees
        (callees.foldlM (followCall g search (n :: path)) before) := by
  intro callees
  induction callees with
  | nil =>
    intro before _ hset hap
    exact ⟨⟨hset, fun _ h => h, hap⟩, fun c hc => (by cases hc)⟩
  | cons callee callees ih =>
    intro before hsub hset hap
    have h := followCall_followed hp hs (hsub (List.mem_cons_self ..)) hset hap
    rw [List.foldlM_cons]
    revert h
    cases followCall g search (n :: path) before callee with
    | error e => exact fun h => h
    | ok mid =>
      intro h
      exact .cons h.1 (h.2 callee (List.mem_cons_self ..))
        (ih mid (fun c hc => hsub (List.mem_cons_of_mem _ hc)) h.1.settled h.1.apart)

end Follow

theorem visit_searched : ∀ (fuel : Nat) (path before : List CallNode) (n : CallNode), Path g (n :: path) →
    g.length ≤ fuel + path.length → Settled g before → n ∉ before → (∀ x ∈ path, x ∉ before) →
    Searched g path before n (visit g fuel path before n) := by
  intro fuel
  induction fuel with
  | zero =>
    intro path before n hp hfuel
    have := hp.length_le
    simp only [List.length_cons] at this
    omega
  | succ fuel ih =>
    intro path before n hp hfuel hset hn hap
    have hap' : ∀ x ∈ n :: path, x ∉ before := fun x hx => by
      rcases List.mem_cons.mp hx with rfl | hx
      · exact hn
      · exact hap x hx
    have h := foldlM_followed hp
      (fun before t hp' hset' ht' hap' => ih (n :: path) before t hp' (by simp only [List.length_cons]; omega)
        hset' ht' hap')
      n.callees before (fun _ h => h) hset hap'
    rw [visit_succ]
    revert h
    cases n.callees.foldlM (followCall g (visit g fuel (n :: path)) (n :: path)) before with
    | error e => exact fun h => h
    | ok after =>
      intro h
      have fresh := h.1.apart n (List.mem_cons_self ..)
      refine ⟨⟨⟨fresh, ?_, h.1.settled⟩, fun _ hx => List.mem_cons_of_mem _ (h.1.keeps hx), fun x hx hm => ?_⟩,
        List.mem_cons_self ..⟩
      · rintro t ⟨c, hc, ht⟩
        exact h.2 c hc t ht
      · rcases List.mem_cons.mp hm with rfl | hm
        · exact (List.nodup_cons.mp hp.nodup).1 hx
        · exact h.1.apart x (List.mem_cons_of_mem _ hx) hm

/-! ## The whole search -/

theorem visitAll_searched : ∀ (ns before : List CallNode), ns ⊆ g → Settled g before →
    match visitAll g before ns with
    | .ok after => Settled g after ∧ before ⊆ after ∧ ns ⊆ after
    | .error e => Closes g e := by
  intro ns
  induction ns with
  | nil => exact fun before _ hset => ⟨hset, fun _ h => h, List.nil_subset _⟩
  | cons n ns ih =>
    intro before hsub hset
    have hsub' : ns ⊆ g := fun x hx => hsub (List.mem_cons_of_mem _ hx)
    have next : ∀ mid, Settled g mid → before ⊆ mid → n ∈ mid →
        match visitAll g mid ns with
        | .ok after => Settled g after ∧ before ⊆ after ∧ n :: ns ⊆ after
        | .error e => Closes g e := by
      intro mid hmid hb hn
      have h := ih mid hsub' hmid
      revert h
      cases visitAll g mid ns with
      | error e => exact fun h => h
      | ok after =>
        exact fun h => ⟨h.1, fun _ hx => h.2.1 (hb hx), List.cons_subset.mpr ⟨h.2.1 hn, h.2.2⟩⟩
    rw [visitAll]
    by_cases hn : n ∈ before
    · rw [if_pos (by simpa using hn)]
      exact next before hset (fun _ h => h) hn
    · rw [if_neg (by simpa using hn)]
      have start : Path g [n] :=
        ⟨by simp, by simpa using hsub (List.mem_cons_self ..), List.IsChain.singleton n⟩
      have h := visit_searched g.length [] before n start (by simp) hset hn (fun x hx => (by cases hx))
      revert h
      cases visit g g.length [] before n with
      | error e => exact fun h => h
      | ok mid => exact fun h => next mid h.1.settled h.1.keeps h.2

/-- A search that fails names a cycle. -/
theorem closes_of_visitAll {e : LinkError} (h : visitAll g [] g = .error e) : Closes g e := by
  have searched := visitAll_searched (g := g) g [] (fun _ h => h) trivial
  rwa [h] at searched

/-- The search succeeds exactly on a graph without cycles. -/
theorem visitAll_eq_ok_iff (g : CallGraph) : (∃ finished, visitAll g [] g = .ok finished) ↔ Acyclic g := by
  have h := visitAll_searched (g := g) g [] (fun _ h => h) trivial
  revert h
  cases visitAll g [] g with
  | error e =>
    intro h
    refine ⟨?_, fun ha => absurd ha h.not_acyclic⟩
    rintro ⟨_, he⟩
    cases he
  | ok after =>
    intro h
    refine ⟨fun _ n hc => ?_, fun _ => ⟨after, rfl⟩⟩
    -- A node on a cycle calls something, so it is a node of the graph unless it is none at all.
    obtain ⟨t, -, hlast⟩ := Relation.TransGen.tail'_iff.mp hc
    obtain ⟨c, -, hn⟩ := hlast
    exact h.1.no_cycle n (h.2.2 (target?_mem hn)) hc

end CallGraph

/-! ## The graph of a module -/

namespace Module

/-- The first function, main included, has a line that calls the second. -/
def Calls (m : Module) (caller callee : Text) : Prop :=
  ∃ f ∈ m.functions, f.name = .ok caller ∧ ∃ callees, f.callees = .ok callees ∧ callee ∈ callees

/-- No function calls itself, directly or through others. -/
def CallsAcyclic (m : Module) : Prop :=
  ∀ name, ¬ Relation.TransGen m.Calls name name

/-- The node tells the name and the callees of the function. -/
def Describes (f : Function) (n : CallNode) : Prop :=
  f.name = .ok n.name ∧ f.callees = .ok n.callees

theorem describes_of_ofModule {m : Module} {g : CallGraph} (h : CallGraph.ofModule m = .ok g) :
    List.Forall₂ Describes m.functions g := by
  have nodes : ∀ (fs : List Function) (k : Nat) (g : CallGraph),
      ((fs.zipIdx k).mapM fun entry => do
        let name ← entry.1.name
        return (⟨entry.2, name, ← entry.1.callees⟩ : CallNode)) = (.ok g : Except LinkError _) →
      List.Forall₂ Describes fs g := by
    intro fs
    induction fs with
    | nil =>
      intro k g h
      cases mapM_eq_ok.mp h
      exact .nil
    | cons f fs ih =>
      intro k g h
      cases mapM_eq_ok.mp h with
      | cons hf hfs =>
        obtain ⟨name, hn, hf⟩ := bind_eq_ok.mp hf
        obtain ⟨callees, hc, hf⟩ := bind_eq_ok.mp hf
        cases hf
        exact .cons ⟨hn, hc⟩ (ih (k + 1) _ (mapM_eq_ok.mpr hfs))
  exact nodes m.functions 0 g h

theorem ofModule_eq_ok {m : Module}
    (readable : ∀ f ∈ m.functions, (∃ name, f.name = .ok name) ∧ ∃ callees, f.callees = .ok callees) :
    ∃ g, CallGraph.ofModule m = .ok g := by
  have nodes : ∀ p ∈ m.functions.zipIdx, ∃ n : CallNode,
      (do let name ← p.1.name; return (⟨p.2, name, ← p.1.callees⟩ : CallNode)) =
        (.ok n : Except LinkError _) := by
    intro p hp
    have hmem : p.1 ∈ m.functions := (List.mem_zipIdx' hp).2 ▸ List.getElem_mem _
    obtain ⟨⟨name, hn⟩, callees, hc⟩ := readable p.1 hmem
    exact ⟨⟨p.2, name, callees⟩, by rw [hn, hc]; rfl⟩
  obtain ⟨g, hg⟩ := exists_forall₂ nodes
  exact ⟨g, mapM_eq_ok.mpr hg⟩

variable {m : Module} {g : CallGraph}

theorem names_of_describes : ∀ {fs : List Function} {g : CallGraph}, List.Forall₂ Describes fs g →
    fs.map Function.name = g.map fun n => .ok n.name
  | _, _, .nil => rfl
  | _, _, .cons h hs => by rw [List.map_cons, List.map_cons, h.1, names_of_describes hs]

theorem names_nodup (hg : List.Forall₂ Describes m.functions g) (distinct : (m.functions.map Function.name).Nodup) :
    (g.map CallNode.name).Nodup := by
  rw [names_of_describes hg] at distinct
  refine List.Nodup.of_map (Except.ok : Text → Except LinkError Text) ?_
  rwa [List.map_map]

/-- Where names are distinct a call reaches the one node of its name. -/
theorem target?_eq_some {n : CallNode} (distinct : (g.map CallNode.name).Nodup) (hn : n ∈ g) :
    CallGraph.target? g n.name = some n := by
  cases ht : CallGraph.target? g n.name with
  | none =>
    have := List.find?_eq_none.mp ht n (List.mem_reverse.mpr hn)
    simp at this
  | some t =>
    rw [List.inj_on_of_nodup_map distinct (CallGraph.target?_mem ht) hn (CallGraph.target?_name ht)]

theorem calls_of_edge (hg : List.Forall₂ Describes m.functions g) {n t : CallNode} (hn : n ∈ g)
    (h : CallGraph.Edge g n t) : m.Calls n.name t.name := by
  obtain ⟨callee, hc, ht⟩ := h
  obtain ⟨f, hf, hname, hcallees⟩ := exists_of_forall₂_right hg n hn
  exact ⟨f, hf, hname, n.callees, hcallees, CallGraph.target?_name ht ▸ hc⟩

theorem node_of_calls (hg : List.Forall₂ Describes m.functions g) {a b : Text} (h : m.Calls a b) :
    ∃ n ∈ g, n.name = a ∧ b ∈ n.callees := by
  obtain ⟨f, hf, hname, callees, hcallees, hb⟩ := h
  obtain ⟨n, hn, hd⟩ := exists_of_forall₂ hg f hf
  have hn' : n.name = a := Except.ok.inj (hd.1.symm.trans hname)
  have hc' : n.callees = callees := Except.ok.inj (hd.2.symm.trans hcallees)
  exact ⟨n, hn, hn', hc' ▸ hb⟩

/-- A run of calls between names that have a node is a run of edges between the nodes. -/
theorem edges_of_calls (hg : List.Forall₂ Describes m.functions g) (distinct : (g.map CallNode.name).Nodup)
    {a : Text} {t : CallNode} (ht : t ∈ g) (h : Relation.TransGen m.Calls a t.name) :
    ∃ n ∈ g, n.name = a ∧ Relation.TransGen (CallGraph.Edge g) n t := by
  induction h using Relation.TransGen.head_induction_on with
  | single h =>
    obtain ⟨n, hn, hname, hc⟩ := node_of_calls hg h
    exact ⟨n, hn, hname, .single ⟨_, hc, target?_eq_some distinct ht⟩⟩
  | head h _ ih =>
    obtain ⟨u, hu, hname, hrest⟩ := ih
    obtain ⟨n, hn, hname', hc⟩ := node_of_calls hg h
    exact ⟨n, hn, hname', .head ⟨_, hc, hname ▸ target?_eq_some distinct hu⟩ hrest⟩

theorem acyclic_iff (hg : List.Forall₂ Describes m.functions g) (distinct : (g.map CallNode.name).Nodup) :
    CallGraph.Acyclic g ↔ m.CallsAcyclic := by
  constructor
  · intro h name hc
    obtain ⟨_, hlast⟩ := Relation.TransGen.head'_iff.mp hc
    obtain ⟨t, ht, rfl, -⟩ := node_of_calls hg hlast.1
    obtain ⟨n, hn, hname, hrun⟩ := edges_of_calls hg distinct ht hc
    rw [List.inj_on_of_nodup_map distinct hn ht hname] at hrun
    exact h t hrun
  · intro h n hc
    have run : ∀ t, Relation.TransGen (CallGraph.Edge g) n t → n ∈ g → Relation.TransGen m.Calls n.name t.name := by
      intro t ht hn
      induction ht with
      | single he => exact .single (calls_of_edge hg hn he)
      | tail hr he ih =>
        obtain ⟨_, -, c, -, hb⟩ := Relation.TransGen.tail'_iff.mp hr
        exact ih.tail (calls_of_edge hg (CallGraph.target?_mem hb) he)
    obtain ⟨_, -, c, -, hn⟩ := Relation.TransGen.tail'_iff.mp hc
    exact h n.name (run n hc (CallGraph.target?_mem hn))

/-- Where every function has a name of its own and its calls can be read, the check of the
    call graph passes exactly when no function reaches itself through calls. -/
theorem checkCallGraph_eq_ok_iff {m : Module}
    (readable : ∀ f ∈ m.functions, (∃ name, f.name = .ok name) ∧ ∃ callees, f.callees = .ok callees)
    (distinct : (m.functions.map Function.name).Nodup) : m.checkCallGraph = .ok () ↔ m.CallsAcyclic := by
  obtain ⟨g, hg⟩ := ofModule_eq_ok readable
  have hd := describes_of_ofModule hg
  rw [checkCallGraph, hg, ← acyclic_iff hd (names_nodup hd distinct), ← CallGraph.visitAll_eq_ok_iff]
  show (discard (CallGraph.visitAll g [] g)) = .ok () ↔ _
  cases CallGraph.visitAll g [] g with
  | error e => exact ⟨fun h => (by cases h), fun ⟨_, h⟩ => (by cases h)⟩
  | ok after => exact ⟨fun _ => ⟨after, rfl⟩, fun _ => rfl⟩

/-- Where the functions can be read, the check fails only with a chain of calls. -/
theorem checkCallGraph_eq_error {m : Module}
    (readable : ∀ f ∈ m.functions, (∃ name, f.name = .ok name) ∧ ∃ callees, f.callees = .ok callees)
    {e : LinkError} (h : m.checkCallGraph = .error e) : ∃ chain, e = .recursiveCallChain chain := by
  obtain ⟨g, hg⟩ := ofModule_eq_ok readable
  rw [checkCallGraph, hg] at h
  change discard (CallGraph.visitAll g [] g) = .error e at h
  cases hv : CallGraph.visitAll g [] g with
  | error e' =>
    rw [hv] at h
    cases h
    obtain ⟨n, path, t, callee, he, -⟩ := CallGraph.closes_of_visitAll hv
    exact ⟨_, he⟩
  | ok after =>
    rw [hv] at h
    cases h

end Module

end SpirvLink
