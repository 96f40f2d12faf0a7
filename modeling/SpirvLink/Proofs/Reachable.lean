/-
  SpirvLink.Proofs.Reachable — removing functions keeps just what main needs.

  A name is needed if a call of the first main function has it, or a function whose name is
  needed calls it (`Needs`). The loop of `Worklist` ends with the names that are needed, so
  a plain function stays just if its name is one, and no other block goes.

  - `removeUnused_succeeds`: removing fails just if there is no main, if a call of main or of a
    needed function cannot be read, or if a plain function has no name.
  - `Kept`: what is left. It has the functions that main needs and calls the same from
    there (`Kept.needs`), so nothing more is removed from it (`Kept.removeUnused`).
  - `removeUnused_exact` puts these together.
-/

import SpirvLink.Proofs.Module
import SpirvLink.Proofs.Reachable.Worklist

namespace SpirvLink

namespace Module

open Worklist

variable {m m' : Module} {main : Function} {calls names : List Text} {name : Text} {b : Block} {n : Nat}

/-! ## What main needs -/

/-- Main reaches the name through one or more calls. -/
def Needs (m : Module) (name : Text) : Prop :=
  ∃ main calls, m.main? = some main ∧ main.callees = .ok calls ∧ m.ReachedFrom calls name

/-- The block has a body and a name that main needs. -/
def NeedsBlock (m : Module) (b : Block) : Prop :=
  ∃ name, (⟨b.lines⟩ : Function).name = .ok name ∧ m.Needs name

theorem needs_iff (hmain : m.main? = some main) (hcalls : main.callees = .ok calls) :
    m.Needs name ↔ m.ReachedFrom calls name := by
  constructor
  · rintro ⟨main', calls', hmain', hcalls', h⟩
    cases hmain.symm.trans hmain'
    cases hcalls.symm.trans hcalls'
    exact h
  · exact fun h => ⟨main, calls, hmain, hcalls, h⟩

/-- The search for what main needs is the loop from the calls of main. -/
theorem reached_eq (hmain : m.main? = some main) (hcalls : main.callees = .ok calls) :
    ∃ found, Ends m (start calls) found ∧ m.reached = found.map (named m) := by
  obtain ⟨found, hfound⟩ := exists_ends m (start calls)
  refine ⟨found, hfound, ?_⟩
  rw [← reachFrom_of_ends hfound m.functions.length (List.length_filter_le ..)]
  simp only [reached, hmain, hcalls]
  rfl

theorem mem_named_iff {known : List Text} : name ∈ named m known ↔
    name ∈ known ∧ ∃ f ∈ m.functions, f.name = .ok name := by
  simp only [named, List.mem_filter, List.any_eq_true, Function.isNamed_iff]

/-- What is reached are the names of functions that main needs. -/
theorem reached_eq_ok (h : m.reached = .ok names) :
    (∃ main, m.main? = some main ∧ main.CallsParse) ∧
      (∀ f ∈ m.functions, ∀ name, f.name = .ok name → m.Needs name → f.CallsParse) ∧
      ∀ f ∈ m.functions, ∀ name, f.name = .ok name → (name ∈ names ↔ m.Needs name) := by
  cases hmain : m.main? with
  | none =>
    rw [reached, hmain] at h
    cases h
  | some main =>
    obtain ⟨calls, hcalls, -⟩ : ∃ calls, main.callees = .ok calls ∧ _ := by
      rw [reached, hmain] at h
      exact bind_eq_ok.mp h
    obtain ⟨found, hends, heq⟩ := reached_eq hmain hcalls
    obtain ⟨known, rfl, rfl⟩ := map_eq_ok.mp (heq.symm.trans h)
    obtain ⟨exact, readable⟩ := hends.exact (.start m calls)
    refine ⟨⟨main, rfl, Function.readable_of_callees hcalls⟩, fun f hf name hname hneeds => ?_, fun f hf name hname => ?_⟩
    · exact readable f hf name hname ((needs_iff hmain hcalls).mp hneeds)
    · rw [mem_named_iff, exact, needs_iff hmain hcalls]
      exact and_iff_left ⟨f, hf, hname⟩

theorem reached_isOk (hmain : m.main? = some main) (parse : main.CallsParse)
    (readable : ∀ f ∈ m.functions, ∀ name, f.name = .ok name → m.Needs name → f.CallsParse) :
    ∃ names, m.reached = .ok names := by
  obtain ⟨calls, hcalls⟩ := Function.callees_isOk.mpr parse
  obtain ⟨found, hends, heq⟩ := reached_eq hmain hcalls
  cases found with
  | ok known => exact ⟨_, heq⟩
  | error e =>
    obtain ⟨f, hf, name, hname, hreached, hparse⟩ := hends.exact (.start m calls)
    exact absurd (readable f hf name hname ((needs_iff hmain hcalls).mpr hreached)) hparse

/-! ## What removing leaves -/

/-- Every plain function has a name. -/
def PlainNamed (m : Module) : Prop :=
  ∀ b ∈ m.blocks, b.kind = .function → ∃ name, (⟨b.lines⟩ : Function).name = .ok name

theorem functionNames_isOk : (∃ names, m.functionNames = .ok names) ↔ m.PlainNamed := by
  constructor
  · rintro ⟨names, h⟩ b hb hk
    obtain ⟨name, -, hname⟩ := exists_of_forall₂ (mapM_eq_ok.mp h) b (List.mem_filter.mpr ⟨hb, by simp [hk]⟩)
    exact ⟨name, hname⟩
  · intro named
    obtain ⟨names, h⟩ := exists_forall₂ (R := fun (b : Block) name => (⟨b.lines⟩ : Function).name = .ok name)
      fun b hb => named b (List.mem_filter.mp hb).1 (eq_of_beq (List.mem_filter.mp hb).2)
    exact ⟨names, mapM_eq_ok.mpr h⟩

theorem mem_functionNames (h : m.functionNames = .ok names) (hb : b ∈ m.blocks) (hk : b.kind = .function)
    (hname : (⟨b.lines⟩ : Function).name = .ok name) : name ∈ names := by
  obtain ⟨name', hmem, hname'⟩ := exists_of_forall₂ (mapM_eq_ok.mp h) b (List.mem_filter.mpr ⟨hb, by simp [hk]⟩)
  cases hname.symm.trans hname'
  exact hmem

theorem isFunctionNamed_of_plain (hk : b.kind = .function) :
    b.isFunctionNamed name = true ↔ (⟨b.lines⟩ : Function).name = .ok name := by
  have body : b.function? = some ⟨b.lines⟩ := if_pos (by simp [Block.hasBody, hk])
  rw [Block.isFunctionNamed, body, Option.any_some, Function.isNamed_iff]

theorem removeUnused_eq_ok_iff : m.removeUnused.result = .ok (n, m') ↔ ∃ reached names, m.reached = .ok reached ∧
    m.functionNames = .ok names ∧ n = m.blocks.countP (isFunctionAmong (names.filter fun n => !reached.contains n)) ∧
      m' = m.dropBlocks (isFunctionAmong (names.filter fun n => !reached.contains n)) := by
  constructor
  · intro h
    obtain ⟨reached, hreached, h⟩ := Logged.bind_result_eq_ok.mp h
    obtain ⟨names, hnames, h⟩ := Logged.bind_result_eq_ok.mp h
    obtain ⟨-, -, h⟩ := Logged.bind_result_eq_ok.mp h
    cases h
    exact ⟨reached, names, hreached, hnames, rfl, rfl⟩
  · rintro ⟨reached, names, hreached, hnames, rfl, rfl⟩
    exact Logged.bind_result_eq_ok.mpr ⟨reached, hreached, Logged.bind_result_eq_ok.mpr ⟨names, hnames, rfl⟩⟩

/-- A block goes just if it is a plain function that main does not need. -/
theorem isFunctionAmong_unused {reached : List Text} (hreached : m.reached = .ok reached)
    (hnames : m.functionNames = .ok names) (hb : b ∈ m.blocks) :
    isFunctionAmong (names.filter fun n => !reached.contains n) b = true ↔ b.kind = .function ∧ ¬ m.NeedsBlock b := by
  rw [isFunctionAmong, Bool.and_eq_true, beq_iff_eq]
  refine and_congr_right fun hk => ?_
  obtain ⟨name, hname⟩ := functionNames_isOk.mp ⟨names, hnames⟩ b hb hk
  have hf : ⟨b.lines⟩ ∈ m.functions := mem_functions hb (by simp [Block.hasBody, hk])
  have known : name ∈ reached ↔ m.Needs name := (reached_eq_ok hreached).2.2 _ hf name hname
  have unused : name ∈ (names.filter fun n => !reached.contains n) ↔ ¬ m.Needs name := by
    simp [mem_functionNames hnames hb hk hname, known]
  constructor
  · rintro hany ⟨name', hname', hneeds⟩
    obtain ⟨other, hother, hnamed⟩ := List.any_eq_true.mp hany
    rw [isFunctionNamed_of_plain hk] at hnamed
    cases hname.symm.trans hname'
    cases hname.symm.trans hnamed
    exact unused.mp hother hneeds
  · intro hne
    refine List.any_eq_true.mpr ⟨name, unused.mpr fun hneeds => hne ⟨name, hname, hneeds⟩, ?_⟩
    exact (isFunctionNamed_of_plain hk).mpr hname

/-- The blocks that stay: all but the plain functions that main does not need. -/
structure Kept (m m' : Module) (keep : Block → Bool) : Prop where
  blocks : m'.blocks = m.blocks.filter keep
  keep_iff : ∀ b ∈ m.blocks, keep b = true ↔ (b.kind = .function → m.NeedsBlock b)

theorem removeUnused_keeps (h : m.removeUnused.result = .ok (n, m')) :
    ∃ keep, Kept m m' keep ∧ n = m.blocks.countP fun b => !keep b := by
  obtain ⟨reached, names, hreached, hnames, rfl, rfl⟩ := removeUnused_eq_ok_iff.mp h
  refine ⟨fun b => !isFunctionAmong (names.filter fun n => !reached.contains n) b, ⟨rfl, fun b hb => ?_⟩, ?_⟩
  · rw [Bool.not_eq_true', ← Bool.not_eq_true, isFunctionAmong_unused hreached hnames hb]
    tauto
  · exact List.countP_congr fun b _ => by rw [Bool.not_not]

/-! ## When removing succeeds -/

/-- Main is there, its calls and those of the functions it needs can be read, and every plain
    function has a name. -/
structure Removable (m : Module) : Prop where
  main : ∃ main, m.main? = some main ∧ main.CallsParse
  needed : ∀ f ∈ m.functions, ∀ name, f.name = .ok name → m.Needs name → f.CallsParse
  named : m.PlainNamed

theorem removeUnused_succeeds : (∃ r, m.removeUnused.result = .ok r) ↔ m.Removable := by
  constructor
  · rintro ⟨⟨n, m'⟩, h⟩
    obtain ⟨reached, names, hreached, hnames, -⟩ := removeUnused_eq_ok_iff.mp h
    obtain ⟨main, needed, -⟩ := reached_eq_ok hreached
    exact ⟨main, needed, functionNames_isOk.mp ⟨names, hnames⟩⟩
  · rintro ⟨⟨main, hmain, parse⟩, needed, named⟩
    obtain ⟨reached, hreached⟩ := reached_isOk hmain parse needed
    obtain ⟨names, hnames⟩ := functionNames_isOk.mpr named
    exact ⟨_, removeUnused_eq_ok_iff.mpr ⟨reached, names, hreached, hnames, rfl, rfl⟩⟩

/-! ## Nothing more to remove -/

namespace Kept

variable {keep : Block → Bool} {f : Function} {caller callee : Text}

theorem mem (k : Kept m m' keep) : b ∈ m'.blocks ↔ b ∈ m.blocks ∧ (b.kind = .function → m.NeedsBlock b) := by
  rw [k.blocks, List.mem_filter]
  exact and_congr_right fun hb => k.keep_iff b hb

theorem main? (k : Kept m m' keep) : m'.main? = m.main? := by
  have mains : m'.blocks.filter Block.isMain = m.blocks.filter Block.isMain := by
    rw [k.blocks, List.filter_filter]
    refine List.filter_congr fun b hb => ?_
    cases hmain : b.isMain with
    | false => rfl
    | true =>
      rw [Bool.true_and, k.keep_iff b hb, eq_of_beq hmain]
      intro h
      cases h
  rw [Module.main?, Module.main?, ← List.head?_filter, ← List.head?_filter, mains]

theorem functions_subset (k : Kept m m' keep) : m'.functions ⊆ m.functions := by
  intro f hf
  obtain ⟨b, hb, body, hlines⟩ := exists_block hf
  obtain rfl : (⟨b.lines⟩ : Function) = f := congrArg Function.mk hlines
  exact mem_functions (k.mem.mp hb).1 body

theorem mem_functions_of_needs (k : Kept m m' keep) (hf : f ∈ m.functions) {name : Text} (hname : f.name = .ok name)
    (h : m.Needs name) : f ∈ m'.functions := by
  obtain ⟨b, hb, body, hlines⟩ := exists_block hf
  obtain rfl : (⟨b.lines⟩ : Function) = f := congrArg Function.mk hlines
  exact mem_functions (k.mem.mpr ⟨hb, fun _ => ⟨name, hname, h⟩⟩) body

theorem calls_subset (k : Kept m m' keep) (h : m'.Calls caller callee) : m.Calls caller callee := by
  obtain ⟨f, hf, hcalls⟩ := h
  exact ⟨f, k.functions_subset hf, hcalls⟩

theorem calls_of_needs (k : Kept m m' keep) (hneeds : m.Needs caller) (h : m.Calls caller callee) :
    m'.Calls caller callee := by
  obtain ⟨f, hf, hname, hcalls⟩ := h
  exact ⟨f, k.mem_functions_of_needs hf hname hneeds, hname, hcalls⟩

/-- Main needs the same names: a call that leads to one is a call of main or of a function
    that stays. -/
theorem needs (k : Kept m m' keep) : m'.Needs name ↔ m.Needs name := by
  unfold Needs
  rw [k.main?]
  refine exists_congr fun main => exists_congr fun calls => and_congr_right fun hmain => and_congr_right fun hcalls => ?_
  constructor
  · rintro ⟨first, hfirst, run⟩
    exact ⟨first, hfirst, Relation.ReflTransGen.mono (fun _ _ h => k.calls_subset h) _ _ run⟩
  · rintro ⟨first, hfirst, run⟩
    refine ⟨first, hfirst, ?_⟩
    induction run with
    | refl => exact .refl
    | tail run hcall ih =>
      exact ih.tail (k.calls_of_needs ⟨main, calls, hmain, hcalls, first, hfirst, run⟩ hcall)

theorem removable (k : Kept m m' keep) (r : m.Removable) : m'.Removable where
  main := k.main? ▸ r.main
  needed f hf name hname hneeds := r.needed f (k.functions_subset hf) name hname (k.needs.mp hneeds)
  named b hb hk := r.named b (k.mem.mp hb).1 hk

/-- A second run removes nothing. -/
theorem removeUnused (k : Kept m m' keep) (r : m.Removable) : m'.removeUnused.result = .ok (0, m') := by
  obtain ⟨⟨n, m''⟩, h⟩ := removeUnused_succeeds.mpr (k.removable r)
  obtain ⟨keep', k', rfl⟩ := removeUnused_keeps h
  have all : ∀ b ∈ m'.blocks, keep' b = true := by
    intro b hb
    refine (k'.keep_iff b hb).mpr fun hk => ?_
    obtain ⟨name, hname, hneeds⟩ := (k.mem.mp hb).2 hk
    exact ⟨name, hname, k.needs.mpr hneeds⟩
  have none : (m'.blocks.countP fun b => !keep' b) = 0 := List.countP_eq_zero.mpr fun b hb => by simp [all b hb]
  obtain rfl : m'' = m' := congrArg Module.mk (k'.blocks.trans (List.filter_eq_self.mpr all))
  rw [h, none]

end Kept

/-- Removing unused functions searches with a loop that ends, fails for no other cause than
    those of `Removable`, keeps just the plain functions that main needs and every other
    block, counts what it removes, and finds nothing more to remove. -/
theorem removeUnused_exact (m : Module) :
    (∀ main calls, m.main? = some main → main.callees = .ok calls →
      ∃ found, Ends m (start calls) found ∧ m.reached = found.map (named m)) ∧
    ((∃ r, m.removeUnused.result = .ok r) ↔ m.Removable) ∧
    ∀ n m', m.removeUnused.result = .ok (n, m') →
      (∃ keep, Kept m m' keep) ∧ m'.blocks.length + n = m.blocks.length ∧ m'.removeUnused.result = .ok (0, m') := by
  refine ⟨fun main calls => reached_eq, removeUnused_succeeds, fun n m' h => ?_⟩
  obtain ⟨keep, k, rfl⟩ := removeUnused_keeps h
  refine ⟨⟨keep, k⟩, ?_, k.removeUnused (removeUnused_succeeds.mp ⟨_, h⟩)⟩
  rw [k.blocks, ← List.countP_eq_length_filter, List.length_eq_countP_add_countP keep]
  simp

end Module

end SpirvLink
