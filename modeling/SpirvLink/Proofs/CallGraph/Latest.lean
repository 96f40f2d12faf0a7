/-
  SpirvLink.Proofs.CallGraph.Latest — the check of the call graph, told by names alone.

  Of several functions with one name a call reaches the last one (`Module.latest?`). A cycle
  of calls only meets functions that a call reaches, so it is a cycle of names, and the
  check passes exactly when all functions can be read and no name leads back to itself
  (`checkCallGraph_iff_latest`). Nothing is said about where a function stands but that it
  is the last of its name, so the order in which the search meets the functions is gone.
-/

import SpirvLink.Proofs.CallGraph

namespace SpirvLink

namespace Function

/-- The name and the calls of the function can be read. -/
def Readable (f : Function) : Prop :=
  (∃ name, f.name = .ok name) ∧ ∃ callees, f.callees = .ok callees

end Function

namespace Module

variable {m : Module} {g : CallGraph} {a b : Text}

/-- The last function of a name, main included, which is the one that a call reaches. -/
def latest? (m : Module) (name : Text) : Option Function :=
  m.functions.reverse.find? (Function.isNamed name)

/-- The function that a call of the first name reaches calls the second one, which is the
    name of a function too. -/
def Leads (m : Module) (a b : Text) : Prop :=
  ∃ f, m.latest? a = some f ∧ (∃ callees, f.callees = .ok callees ∧ b ∈ callees) ∧ ∃ f', m.latest? b = some f'

/-- No name leads back to itself. -/
def LeadsAcyclic (m : Module) : Prop :=
  ∀ name, ¬ Relation.TransGen m.Leads name name

/-! ## Nodes and functions -/

theorem isNamed_of_describes {f : Function} {n : CallNode} (h : Describes f n) (name : Text) :
    f.isNamed name = (n.name == name) := by
  rw [Bool.eq_iff_iff, Function.isNamed_iff, h.1, Except.ok.injEq, beq_iff_eq]

/-- The node that a call reaches tells of the last function of the name. -/
theorem latest?_describes (hg : List.Forall₂ Describes m.functions g) (name : Text) :
    Option.Rel Describes (m.latest? name) (CallGraph.target? g name) := by
  have found : ∀ {fs : List Function} {ns : List CallNode}, List.Forall₂ Describes fs ns →
      Option.Rel Describes (fs.find? (Function.isNamed name)) (ns.find? fun n => n.name == name) := by
    intro fs ns h
    induction h with
    | nil => exact .none
    | @cons f n fs ns hd _ ih =>
      rw [List.find?_cons, List.find?_cons, isNamed_of_describes hd]
      cases n.name == name with
      | true => exact .some hd
      | false => exact ih
  exact found (List.rel_reverse hg)

theorem target_of_latest (hg : List.Forall₂ Describes m.functions g) {f : Function} (h : m.latest? a = some f) :
    ∃ n, CallGraph.target? g a = some n ∧ Describes f n := by
  have rel := latest?_describes hg a
  rw [h] at rel
  cases ht : CallGraph.target? g a with
  | none =>
    rw [ht] at rel
    cases rel
  | some n =>
    rw [ht] at rel
    cases rel with
    | some hd => exact ⟨n, rfl, hd⟩

theorem latest_of_target (hg : List.Forall₂ Describes m.functions g) {n : CallNode}
    (h : CallGraph.target? g a = some n) : ∃ f, m.latest? a = some f ∧ Describes f n := by
  have rel := latest?_describes hg a
  rw [h] at rel
  cases hf : m.latest? a with
  | none =>
    rw [hf] at rel
    cases rel
  | some f =>
    rw [hf] at rel
    cases rel with
    | some hd => exact ⟨f, rfl, hd⟩

/-! ## Cycles of nodes and cycles of names -/

theorem edge_of_leads (hg : List.Forall₂ Describes m.functions g) {n : CallNode} (hn : CallGraph.target? g a = some n)
    (h : m.Leads a b) : ∃ t, CallGraph.target? g b = some t ∧ CallGraph.Edge g n t := by
  obtain ⟨f, hf, ⟨callees, hcallees, hb⟩, f', hf'⟩ := h
  obtain ⟨n', hn', -, hd⟩ := target_of_latest hg hf
  obtain ⟨t, ht, -⟩ := target_of_latest hg hf'
  cases hn.symm.trans hn'
  cases hcallees.symm.trans hd
  exact ⟨t, ht, b, hb, ht⟩

theorem edges_of_leads (hg : List.Forall₂ Describes m.functions g) {n : CallNode} (hn : CallGraph.target? g a = some n)
    (h : Relation.TransGen m.Leads a b) :
    ∃ t, CallGraph.target? g b = some t ∧ Relation.TransGen (CallGraph.Edge g) n t := by
  induction h with
  | single h =>
    obtain ⟨t, ht, he⟩ := edge_of_leads hg hn h
    exact ⟨t, ht, .single he⟩
  | tail _ h ih =>
    obtain ⟨t, ht, hrun⟩ := ih
    obtain ⟨u, hu, he⟩ := edge_of_leads hg ht h
    exact ⟨u, hu, hrun.tail he⟩

theorem leads_of_edge (hg : List.Forall₂ Describes m.functions g) {n t : CallNode}
    (hn : CallGraph.target? g n.name = some n) (h : CallGraph.Edge g n t) :
    m.Leads n.name t.name ∧ CallGraph.target? g t.name = some t := by
  obtain ⟨callee, hc, ht⟩ := h
  obtain rfl := CallGraph.target?_name ht
  obtain ⟨f, hf, -, hd⟩ := latest_of_target hg hn
  obtain ⟨f', hf', -⟩ := latest_of_target hg ht
  exact ⟨⟨f, hf, ⟨_, hd, hc⟩, f', hf'⟩, ht⟩

/-- Every node of a cycle is reached by a call, so the cycle is one of names. -/
theorem acyclic_iff_leadsAcyclic (hg : List.Forall₂ Describes m.functions g) :
    CallGraph.Acyclic g ↔ m.LeadsAcyclic := by
  constructor
  · intro h name hc
    obtain ⟨_, ⟨f, hf, -⟩, -⟩ := Relation.TransGen.head'_iff.mp hc
    obtain ⟨n, hn, -⟩ := target_of_latest hg hf
    obtain ⟨t, ht, hrun⟩ := edges_of_leads hg hn hc
    cases hn.symm.trans ht
    exact h n hrun
  · intro h n hc
    obtain ⟨_, -, c, -, hn⟩ := Relation.TransGen.tail'_iff.mp hc
    obtain rfl := CallGraph.target?_name hn
    have run : ∀ t, Relation.TransGen (CallGraph.Edge g) n t →
        Relation.TransGen m.Leads n.name t.name ∧ CallGraph.target? g t.name = some t := by
      intro t ht
      induction ht with
      | single he =>
        obtain ⟨hl, ht⟩ := leads_of_edge hg hn he
        exact ⟨.single hl, ht⟩
      | tail _ he ih =>
        obtain ⟨hl, ht⟩ := leads_of_edge hg ih.2 he
        exact ⟨ih.1.tail hl, ht⟩
    exact h n.name (run n hc).1

theorem readable_of_ofModule (h : CallGraph.ofModule m = .ok g) : ∀ f ∈ m.functions, f.Readable := by
  intro f hf
  obtain ⟨n, -, hname, hcallees⟩ := exists_of_forall₂ (describes_of_ofModule h) f hf
  exact ⟨⟨_, hname⟩, _, hcallees⟩

/-- The check passes exactly when every function can be read and no name leads back to
    itself. Names may repeat. -/
theorem checkCallGraph_iff_latest :
    m.checkCallGraph = .ok () ↔ (∀ f ∈ m.functions, f.Readable) ∧ m.LeadsAcyclic := by
  have searched : ∀ g, CallGraph.ofModule m = .ok g → (m.checkCallGraph = .ok () ↔ m.LeadsAcyclic) := by
    intro g hg
    rw [checkCallGraph, hg, ← acyclic_iff_leadsAcyclic (describes_of_ofModule hg), ← CallGraph.visitAll_eq_ok_iff]
    show discard (CallGraph.visitAll g [] g) = .ok () ↔ _
    cases CallGraph.visitAll g [] g with
    | error e =>
      refine ⟨fun h => (by cases h), fun h => ?_⟩
      obtain ⟨after, h⟩ := h
      cases h
    | ok after => exact ⟨fun _ => ⟨after, rfl⟩, fun _ => rfl⟩
  constructor
  · intro h
    obtain ⟨g, hg, -⟩ := bind_eq_ok.mp (show CallGraph.ofModule m >>= _ = .ok () from h)
    exact ⟨readable_of_ofModule hg, (searched g hg).mp h⟩
  · rintro ⟨readable, acyclic⟩
    obtain ⟨g, hg⟩ := ofModule_eq_ok readable
    exact (searched g hg).mpr acyclic

end Module

end SpirvLink
