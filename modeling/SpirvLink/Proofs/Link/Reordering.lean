/-
  SpirvLink.Proofs.Link.Reordering — what a link takes from the kernel module.

  Of a kernel module a link takes the definitions, the variables and the functions; header,
  decorations and declarations never reach the joined module. The order of the functions
  shows only in the joined module, whose plain functions at the end then have another order
  (`Module.Reordered`). Every later step goes on in step on two such modules: calls are
  resolved alike, the check of the call graph passes for both or for none, main gets the
  same lines, and at last all plain functions go. So two kernel modules with the same
  definitions, variables and functions link alike (`linkModules_reordered`).

  The two links can change the names in a copy in two orders that agree in the functions
  copied. Where a function owns a name with a copy's number behind another one of its names,
  orders that do not agree show in the output (`linkModules_order_shows`).
-/

import SpirvLink.Proofs.CallGraph.Latest
import SpirvLink.Proofs.Link.Preparing
import SpirvLink.Proofs.Link.Shape

namespace SpirvLink

/-- A list of one element at most has no other order. -/
theorem eq_of_perm_of_length_le_one {α : Type} {xs ys : List α} (h : xs.Perm ys) (hx : xs.length ≤ 1) : xs = ys := by
  cases xs with
  | nil => exact h.nil_eq
  | cons x xs =>
    have hxs : xs = [] := List.eq_nil_of_length_eq_zero (by simpa using hx)
    rw [hxs] at h ⊢
    exact (List.perm_singleton.mp h.symm).symm

namespace Module

/-- The blocks are the same, but for the order of plain functions at the end, no two of
    which have one name. -/
def Reordered (m₁ m₂ : Module) : Prop :=
  ∃ front back₁ back₂, m₁.blocks = front ++ back₁ ∧ m₂.blocks = front ++ back₂ ∧ back₁.Perm back₂ ∧
    (∀ b ∈ back₁, b.kind = .function) ∧ ∀ name, back₁.countP (Block.isFunctionNamed name) ≤ 1

/-- Main is there and calls nothing. -/
def CallFree (m : Module) : Prop :=
  ∃ main, m.main? = some main ∧ ∀ l ∈ main.lines, l.isCall = false

namespace Reordered

variable {m₁ m₂ : Module}

theorem symm (h : Reordered m₁ m₂) : Reordered m₂ m₁ := by
  obtain ⟨front, back₁, back₂, h₁, h₂, perm, kinds, distinct⟩ := h
  exact ⟨front, back₂, back₁, h₂, h₁, perm.symm, fun b hb => kinds b (perm.mem_iff.mpr hb),
    fun name => perm.countP_eq _ ▸ distinct name⟩

theorem perm (h : Reordered m₁ m₂) : m₁.blocks.Perm m₂.blocks := by
  obtain ⟨front, back₁, back₂, h₁, h₂, perm, -, -⟩ := h
  rw [h₁, h₂]
  exact perm.append_left front

theorem mem_plainFunctions (h : Reordered m₁ m₂) {f : Function} : f ∈ m₁.plainFunctions ↔ f ∈ m₂.plainFunctions :=
  ((h.perm.filter _).map _).mem_iff

/-- No order shows among blocks that one name selects. -/
theorem filter_named (h : Reordered m₁ m₂) {name : Text} {q : Block → Bool}
    (hq : ∀ b, q b = true → b.isFunctionNamed name = true) : m₁.blocks.filter q = m₂.blocks.filter q := by
  obtain ⟨front, back₁, back₂, h₁, h₂, perm, -, distinct⟩ := h
  rw [h₁, h₂, List.filter_append, List.filter_append]
  refine congrArg _ (eq_of_perm_of_length_le_one (perm.filter q) ?_)
  rw [← List.countP_eq_length_filter]
  exact (List.countP_mono_left fun b _ => hq b).trans (distinct name)

/-- No order shows among blocks that are no plain functions. -/
theorem filter_other (h : Reordered m₁ m₂) {q : Block → Bool} (hq : ∀ b, q b = true → b.kind ≠ .function) :
    m₁.blocks.filter q = m₂.blocks.filter q := by
  obtain ⟨front, back₁, back₂, h₁, h₂, perm, kinds, -⟩ := h
  have none : back₁.filter q = [] := List.filter_eq_nil_iff.mpr fun b hb hqb => hq b hqb (kinds b hb)
  have none' : back₂.filter q = [] := (none ▸ perm.filter q).nil_eq.symm
  rw [h₁, h₂, List.filter_append, List.filter_append, none, none']

/-! ## Calls and main -/

theorem resolve (h : Reordered m₁ m₂) (callee : Text) : Inlining.resolve m₁ callee = Inlining.resolve m₂ callee := by
  have named : ∀ b : Block, (b.kind == .function && b.isFunctionNamed callee) = true → b.isFunctionNamed callee = true :=
    fun b hb => (Bool.and_eq_true_iff.mp hb).2
  rw [Inlining.resolve, Inlining.resolve, h.filter_named named]

theorem main? (h : Reordered m₁ m₂) : m₁.main? = m₂.main? := by
  rw [Module.main?, Module.main?, ← List.head?_filter, ← List.head?_filter, h.filter_other]
  intro b hb hk
  rw [Block.isMain, hk] at hb
  cases hb

theorem setMain (h : Reordered m₁ m₂) (lines : List Line) : Reordered (m₁.setMain lines) (m₂.setMain lines) := by
  obtain ⟨front, back₁, back₂, h₁, h₂, perm, kinds, distinct⟩ := h
  have go : ∀ front back : List Block, (∀ b ∈ back, b.kind = .function) →
      setMain.go lines (front ++ back) = setMain.go lines front ++ back := by
    intro front back hback
    induction front with
    | nil =>
      induction back with
      | nil => rfl
      | cons b back ih =>
        obtain ⟨hb, hback⟩ := List.forall_mem_cons.mp hback
        have stays : setMain.go lines (b :: back) = b :: setMain.go lines back := if_neg (by simp [Block.isMain, hb])
        exact stays.trans (congrArg (b :: ·) (ih hback))
    | cons b front ih =>
      rw [List.cons_append, setMain.go, setMain.go, ih]
      split <;> rfl
  refine ⟨setMain.go lines front, back₁, back₂, ?_, ?_, perm, kinds, distinct⟩
  · rw [Module.setMain, h₁, go front back₁ kinds]
  · rw [Module.setMain, h₂, go front back₂ fun b hb => kinds b (perm.mem_iff.mpr hb)]

/-! ## The call graph -/

theorem latest? (h : Reordered m₁ m₂) (name : Text) : m₁.latest? name = m₂.latest? name := by
  have last : ∀ m : Module, m.latest? name =
      ((m.blocks.filter (Block.isFunctionNamed name)).filterMap Block.function?).reverse.head? := by
    intro m
    rw [Module.latest?, ← List.head?_filter, List.filter_reverse, functions, List.filter_filterMap, List.filterMap_filter]
    refine congrArg (fun fs => (List.reverse fs).head?) (List.filterMap_congr fun b _ => ?_)
    rw [Block.isFunctionNamed]
    cases b.function? with
    | none => simp
    | some f => cases hf : f.isNamed name <;> simp [hf, Option.filter]
  rw [last, last, h.filter_named fun _ => id]

theorem leads (h : Reordered m₁ m₂) : m₁.Leads = m₂.Leads := by
  funext a b
  simp only [Leads, h.latest?]

/-- The check of the call graph passes for both or for none. -/
theorem checkCallGraph (h : Reordered m₁ m₂) : m₁.checkCallGraph = .ok () ↔ m₂.checkCallGraph = .ok () := by
  have same : ∀ f, f ∈ m₁.functions ↔ f ∈ m₂.functions := fun f => (h.perm.filterMap _).mem_iff
  rw [checkCallGraph_iff_latest, checkCallGraph_iff_latest, LeadsAcyclic, LeadsAcyclic, h.leads]
  simp only [same]

/-! ## Inlining -/

section

/-! Copies are made in two orders that agree in each function. -/

variable {order₁ order₂ : KeyOrder}

theorem passes (h : Reordered m₁ m₂) (agree : ∀ f ∈ m₁.plainFunctions, KeyOrder.Agree order₁ order₂ f) :
    ∀ (fuel done : Nat) (i : Inliner),
      (@Inliner.passes order₁ fuel done i m₁).replaced = (@Inliner.passes order₂ fuel done i m₂).replaced ∧
        Reordered (@Inliner.passes order₁ fuel done i m₁).module (@Inliner.passes order₂ fuel done i m₂).module := by
  intro fuel
  induction fuel generalizing m₁ m₂ with
  | zero => exact fun done i => ⟨rfl, h⟩
  | succ fuel ih =>
    intro done i
    have pass : ∀ main, @Inliner.pass order₁ i m₁ main = @Inliner.pass order₂ i m₂ main := by
      intro main
      unfold Inliner.pass
      rw [expandLines_congr h.resolve fun f hf => agree f (h.mem_plainFunctions.mpr hf)]
    unfold Inliner.passes
    rw [h.main?]
    cases hmain : m₂.main? with
    | none => exact ⟨rfl, h⟩
    | some main =>
      simp only [pass]
      split
      · cases (@Inliner.pass order₂ i m₂ main).result with
        | error e => exact ⟨rfl, h⟩
        | ok lines =>
          have agree : ∀ f ∈ (m₁.setMain lines).plainFunctions, KeyOrder.Agree order₁ order₂ f := by
            rwa [plainFunctions_setMain (h.main?.trans hmain)]
          obtain ⟨replaced, modules⟩ := ih (h.setMain lines) agree (done + 1) (i.after (@Inliner.pass order₂ i m₂ main).log)
          exact ⟨congrArg (Except.map _) replaced, modules⟩
      · exact ⟨rfl, h⟩

theorem inlineMain (h : Reordered m₁ m₂) (agree : ∀ f ∈ m₁.plainFunctions, KeyOrder.Agree order₁ order₂ f) (i : Inliner) :
    InStep Eq (@Inliner.inlineMain order₁ i m₁).replaced (@Inliner.inlineMain order₂ i m₂).replaced ∧
      Reordered (@Inliner.inlineMain order₁ i m₁).module (@Inliner.inlineMain order₂ i m₂).module := by
  have limit : Inliner.passLimit m₁ = Inliner.passLimit m₂ := by
    rw [Inliner.passLimit, Inliner.passLimit, h.perm.length_eq]
  unfold Inliner.inlineMain
  cases h₁ : m₁.checkCallGraph with
  | error e₁ =>
    cases h₂ : m₂.checkCallGraph with
    | error e₂ => exact ⟨.failed, h⟩
    | ok _ =>
      rw [h.checkCallGraph.mpr h₂] at h₁
      cases h₁
  | ok _ =>
    rw [h.checkCallGraph.mp h₁]
    obtain ⟨replaced, modules⟩ := h.passes agree (Inliner.passLimit m₂) 0 i
    rw [limit]
    refine ⟨?_, modules⟩
    rw [replaced]
    exact .refl _

end

/-! ## Removing -/

theorem kept_sorted (h : Reordered m₁ m₂) : (m₁.sorted.blocks.filter fun b => !(b.kind == .function)) =
    m₂.sorted.blocks.filter fun b => !(b.kind == .function) := by
  rw [sorted, sorted, List.filter_flatMap, List.filter_flatMap]
  refine List.flatMap_congr fun k _ => ?_
  rw [List.filter_filter, List.filter_filter]
  refine h.filter_other fun b hb hk => ?_
  simp [hk] at hb

theorem functions_sorted (h : Reordered m₁ m₂) : (m₁.sorted.blocks.countP fun b => b.kind == .function) =
    m₂.sorted.blocks.countP fun b => b.kind == .function := by
  rw [List.countP_eq_length_filter, List.countP_eq_length_filter, filter_kind_sorted, filter_kind_sorted]
  exact (h.perm.filter _).length_eq

theorem removeUnused_of (h : Reordered m₁ m₂) (clean : m₁.CallFree) {r : Nat × Module}
    (hr : m₁.sorted.removeUnused.result = .ok r) : m₂.sorted.removeUnused.result = .ok r := by
  obtain ⟨main, hmain, calls⟩ := clean
  have hmain₁ := (main?_sorted m₁).trans hmain
  have hmain₂ := (main?_sorted m₂).trans (h.main?.symm.trans hmain)
  have named := (removeUnused_isOk hmain₁ calls).mp ⟨r, hr⟩
  obtain ⟨⟨n, m'⟩, hr'⟩ := (removeUnused_isOk hmain₂ calls).mpr fun b hb =>
    named b (mem_sorted.mpr (h.perm.mem_iff.mpr (mem_sorted.mp hb)))
  have only : ∀ {m : Module}, m.main? = some main → ∀ main', m.main? = some main' → ∀ l ∈ main'.lines, l.isCall = false := by
    intro m hm main' hm'
    cases hm.symm.trans hm'
    exact calls
  obtain ⟨count, blocks⟩ := removeUnused_eq_ok (only hmain₁) hr
  obtain ⟨count', blocks'⟩ := removeUnused_eq_ok (only hmain₂) hr'
  rw [hr']
  refine congrArg Except.ok (Prod.ext ?_ (congrArg Module.mk ?_))
  · rw [count', ← h.functions_sorted, ← count]
  · rw [blocks', ← h.kept_sorted, ← blocks]

theorem removeUnused (h : Reordered m₁ m₂) (clean : m₁.CallFree) :
    InStep Eq m₁.sorted.removeUnused.result m₂.sorted.removeUnused.result := by
  refine inStep_iff.mpr ⟨fun r hr => ⟨r, h.removeUnused_of clean hr, rfl⟩, fun r hr => ⟨r, ?_, rfl⟩⟩
  exact h.symm.removeUnused_of (clean.imp fun main => And.imp_left h.main?.symm.trans) hr

end Reordered

end Module

/-! ## The steps of a link -/

namespace Link

variable {o : Options} {m₁ m₂ : Module}

theorem patch_inStep (h : m₁.Reordered m₂) (id : Text) :
    InStep (fun a b => a.Reordered b ∧ a.plainFunctions = m₁.plainFunctions ∧ ∃ main, a.main? = some main)
      (patch o id m₁).result (patch o id m₂).result := by
  unfold patch
  rw [← h.main?]
  cases hmain : m₁.main? with
  | none => exact .failed
  | some main =>
    dsimp only
    split
    · exact .failed
    · exact .ok ⟨h.setMain _, Module.plainFunctions_setMain hmain _, _, Module.main?_setMain hmain _⟩

theorem inlined_inStep {order₁ order₂ : KeyOrder} (h : m₁.Reordered m₂)
    (agree : ∀ f ∈ m₁.plainFunctions, KeyOrder.Agree order₁ order₂ f) {main : Function} (hmain : m₁.main? = some main) :
    InStep (fun a b => a.1 = b.1 ∧ a.2.Reordered b.2 ∧ a.2.CallFree) (@inlined order₁ o m₁).result
      (@inlined order₂ o m₂).result := by
  obtain ⟨replaced, modules⟩ := h.inlineMain agree (.ofPrefix o.kernelPrefix)
  refine replaced.map fun n n' hn heq => ⟨heq, modules, ?_⟩
  obtain ⟨last, hlast, clean, -⟩ :=
    @inlineMain_keeps _ _ order₁ (fun _ => True) hmain (fun _ _ _ _ _ => trivial) trivial _ _ hn
  exact ⟨⟨last⟩, by rw [hlast, Module.main?_setMain hmain], clean⟩

/-- An edit that puts no call in keeps main free of calls. -/
theorem onMain_inStep {edit : List Line → List Line × Logged Nat}
    (keeps : ∀ ls n, (edit ls).2.result = .ok n → (∀ l ∈ ls, l.isCall = false) → ∀ l ∈ (edit ls).1, l.isCall = false)
    (h : m₁.Reordered m₂) (clean : m₁.CallFree) :
    InStep (fun a b => a.1 = b.1 ∧ a.2.Reordered b.2 ∧ a.2.CallFree) (onMain edit m₁).result (onMain edit m₂).result := by
  obtain ⟨main, hmain, calls⟩ := clean
  unfold onMain
  rw [← h.main?, hmain]
  refine InStep.bind_result (InStep.refl _).of_ok ?_
  rintro n _ ⟨rfl, hn⟩
  exact .ok ⟨rfl, h.setMain _, _, Module.main?_setMain hmain _, keeps _ n hn calls⟩

end Link

/-! ## Joining -/

namespace Splice

/-- A kernel module with these definitions, these variables and these last blocks. Its
    header and its decorations can be any. -/
structure KernelParts (k : Module) (definitions : Block) (globals : Option Block) (rest : List Block) : Prop where
  blocks : ∃ header decorations, k.blocks = header :: decorations :: definitions :: (globals.toList ++ rest) ∧
    header.kind = .header ∧ decorations.kind = .decorations
  definitionsKind : definitions.kind = .definitions
  globalsKind : ∀ b ∈ globals, b.kind = .globalVariables
  restKinds : ∀ b ∈ rest, b.hasBody = true ∨ b.kind = .declaration

/-- The kernel's functions, all of them plain ones. -/
def plain (fs : List Function) : List Block :=
  fs.map fun f => ⟨.function, f.lines⟩

variable {k k₁ k₂ : Module} {definitions : Block} {globals : Option Block} {rest rest₁ rest₂ : List Block}

namespace KernelParts

theorem mapLines (h : KernelParts k definitions globals rest) (f : Line → Line) : KernelParts (k.mapLines f)
    (definitions.mapLines f) (globals.map (Block.mapLines f)) (rest.map (Block.mapLines f)) where
  blocks := by
    obtain ⟨header, decorations, hk, hheader, hdecorations⟩ := h.blocks
    refine ⟨header.mapLines f, decorations.mapLines f, ?_, hheader, hdecorations⟩
    rw [Module.mapLines, Module.mapBlocks, hk]
    cases globals <;> simp
  definitionsKind := h.definitionsKind
  globalsKind b hb := by
    obtain ⟨c, hc, rfl⟩ := Option.map_eq_some_iff.mp hb
    exact h.globalsKind c hc
  restKinds := List.forall_mem_map.mpr h.restKinds

theorem functions (h : KernelParts k definitions globals rest) : k.functions = rest.filterMap Block.function? := by
  obtain ⟨header, decorations, hk, hheader, hdecorations⟩ := h.blocks
  have front : ∀ b ∈ header :: decorations :: definitions :: globals.toList, b.function? = none := by
    intro b hb
    refine if_neg ?_
    simp only [List.mem_cons, Option.mem_toList] at hb
    rcases hb with rfl | rfl | rfl | hb
    · simp [Block.hasBody, hheader]
    · simp [Block.hasBody, hdecorations]
    · simp [Block.hasBody, h.definitionsKind]
    · simp [Block.hasBody, h.globalsKind b hb]
  rw [Module.functions, hk, ← List.cons_append, ← List.cons_append, ← List.cons_append, List.filterMap_append,
    List.filterMap_eq_nil_iff.mpr front, List.nil_append]

theorem takeVariables (h : KernelParts k definitions globals rest) :
    takeVariables (globals.toList ++ rest) = (globals.toList, rest) := by
  cases globals with
  | some b => exact if_pos (h.globalsKind b rfl)
  | none =>
    cases rest with
    | nil => rfl
    | cons b rest =>
      refine if_neg fun hk => ?_
      have := h.restKinds b (List.mem_cons_self ..)
      rw [Block.hasBody, hk] at this
      rcases this with h | h <;> cases h

/-- Joining reads the wrapper block by block and takes from the kernel what it takes. -/
theorem splice (h : KernelParts k definitions globals rest) (w : Module) : splice k w = (do
    let (header, ws) ← expect .wrapper .header w.blocks
    let (decorations, ws) ← expect .wrapper .decorations ws
    let (types, ws) ← expect .wrapper .definitions ws
    let (own, ws) ← expect .wrapper .globalVariables ws
    checkWrapperRest false ws
    let fs ← kernelFunctions rest
    return ⟨[header, decorations, types, definitions, own] ++ globals.toList ++ ws ++ fs⟩) := by
  obtain ⟨header, decorations, hk, hheader, hdecorations⟩ := h.blocks
  have taken : ∀ {kind : BlockKind} {b : Block} {bs : List Block}, b.kind = kind →
      expect .kernel kind (b :: bs) = .ok (b, bs) := fun hb => expect_eq_ok.mpr ⟨rfl, hb⟩
  have step : ∀ {α β : Type} (a : α) (f : α → Except LinkError β), (Except.ok a >>= f) = f a := fun _ _ => rfl
  simp only [SpirvLink.splice, hk, taken hheader, taken hdecorations, taken h.definitionsKind, h.takeVariables, step]

theorem kernelFunctions (h : KernelParts k definitions globals rest) {fs : List Block} :
    kernelFunctions rest = .ok fs ↔ (∀ f ∈ k.functions, f.callsItself = .ok false) ∧ fs = plain k.functions := by
  have functions : k.functions = (rest.filter Block.hasBody).map fun b => ⟨b.lines⟩ := by
    rw [h.functions, ← List.filterMap_eq_map, List.filterMap_filter]
    rfl
  rw [kernelFunctions_iff, functions, plain, List.forall_mem_map, List.map_map]
  exact and_iff_right h.restKinds

theorem kernelFunctions_inStep (h₁ : KernelParts k₁ definitions globals rest₁) (h₂ : KernelParts k₂ definitions globals rest₂)
    (perm : k₁.functions.Perm k₂.functions) :
    InStep (fun fs₁ fs₂ => fs₁ = plain k₁.functions ∧ fs₂ = plain k₂.functions) (Splice.kernelFunctions rest₁)
      (Splice.kernelFunctions rest₂) := by
  refine inStep_iff.mpr ⟨fun fs h => ?_, fun fs h => ?_⟩
  · obtain ⟨none, rfl⟩ := h₁.kernelFunctions.mp h
    exact ⟨_, h₂.kernelFunctions.mpr ⟨fun f hf => none f (perm.mem_iff.mpr hf), rfl⟩, rfl, rfl⟩
  · obtain ⟨none, rfl⟩ := h₂.kernelFunctions.mp h
    exact ⟨_, h₁.kernelFunctions.mpr ⟨fun f hf => none f (perm.mem_iff.mp hf), rfl⟩, rfl, rfl⟩

end KernelParts

/-- Where no two functions have one name, a name selects one block at most. -/
theorem countP_plain_le {fs : List Function} (distinct : (fs.filterMap fun f => f.name.toOption).Nodup) (name : Text) :
    (plain fs).countP (Block.isFunctionNamed name) ≤ 1 := by
  refine Nat.le_trans (Nat.le_of_eq ?_) (List.nodup_iff_count_le_one.mp distinct name)
  rw [plain, List.countP_map, List.count, List.countP_filterMap]
  refine List.countP_congr fun f _ => ?_
  show Function.isNamed name f = true ↔ _
  rw [Function.isNamed_iff]
  cases f.name <;> simp [Except.toOption]

theorem splice_inStep (h₁ : KernelParts k₁ definitions globals rest₁) (h₂ : KernelParts k₂ definitions globals rest₂)
    (perm : k₁.functions.Perm k₂.functions) (distinct : (k₁.functions.filterMap fun f => f.name.toOption).Nodup) (w : Module) :
    InStep Module.Reordered (splice k₁ w) (splice k₂ w) := by
  rw [h₁.splice, h₂.splice]
  refine InStep.bind (.refl _) ?_
  rintro ⟨header, ws⟩ _ rfl
  refine InStep.bind (.refl _) ?_
  rintro ⟨decorations, ws⟩ _ rfl
  refine InStep.bind (.refl _) ?_
  rintro ⟨types, ws⟩ _ rfl
  refine InStep.bind (.refl _) ?_
  rintro ⟨own, ws⟩ _ rfl
  refine InStep.bind (.refl _) ?_
  rintro ⟨⟩ ⟨⟩ -
  refine InStep.bind (h₁.kernelFunctions_inStep h₂ perm) ?_
  rintro _ _ ⟨rfl, rfl⟩
  exact .ok ⟨_, _, _, rfl, rfl, perm.map _, List.forall_mem_map.mpr fun _ _ => rfl, countP_plain_le distinct⟩

end Splice

/-! ## Kernel modules that link alike -/

/-- Two kernel modules with the same definitions, the same variables and the same functions
    in any order link alike, if no two functions have one name after the fixups and the
    orders in which the two links change the names in copies agree in each function: both
    links fail, or both give the same module and the same figures. Only the storage classes
    that were moved are counted in all blocks. -/
theorem linkModules_reordered {order₁ order₂ : KeyOrder} {o : Options} {k₁ k₂ : Module} {definitions : Block}
    {globals : Option Block} {rest₁ rest₂ : List Block} (h₁ : Splice.KernelParts k₁ definitions globals rest₁)
    (h₂ : Splice.KernelParts k₂ definitions globals rest₂) (perm : k₁.functions.Perm k₂.functions)
    (distinct : ((Link.prepared o k₁).functions.filterMap fun f => f.name.toOption).Nodup) (w : Module)
    (agree : ∀ f ∈ w.plainFunctions ++ (Link.prepared o k₁).functions, KeyOrder.Agree order₁ order₂ f) :
    InStep (fun out₁ out₂ => out₁.module = out₂.module ∧
        { out₁.stats with storageClassMoves := out₂.stats.storageClassMoves } = out₂.stats)
      (@linkModules order₁ o k₁ w).result (@linkModules order₂ o k₂ w).result := by
  have functions : ∀ k, (Link.prepared o k).functions = k.functions.map fun f => ⟨f.lines.map (Link.fixLine o)⟩ := by
    intro k
    rw [Link.prepared_eq_mapLines]
    exact Module.functions_mapLines _ k
  have prepared : ∀ {k rest}, Splice.KernelParts k definitions globals rest → Splice.KernelParts (Link.prepared o k) _ _ _ :=
    fun h => Link.prepared_eq_mapLines o _ ▸ h.mapLines _
  unfold linkModules
  refine InStep.bind_result (.refl _) ?_
  rintro ⟨⟩ ⟨⟩ -
  refine InStep.bind_result (.refl _) ?_
  rintro kernelId _ rfl
  refine InStep.bind_result (.refl _) ?_
  rintro ⟨⟩ ⟨⟩ -
  refine InStep.bind_result (R := fun _ _ => True) (.ok trivial) ?_
  rintro ⟨⟩ ⟨⟩ -
  refine InStep.bind_result (InStep.of_ok (R := Module.Reordered) ?_) ?_
  · refine Splice.splice_inStep (prepared h₁) (prepared h₂) ?_ distinct w
    rw [functions, functions]
    exact perm.map _
  rintro m₁ m₂ ⟨spliced, joins⟩
  rw [← (joined_of_splice joins).functions] at agree
  refine InStep.bind_result (R := fun _ _ => True) (.ok trivial) ?_
  rintro ⟨⟩ ⟨⟩ -
  refine InStep.bind_result (Link.patch_inStep spliced kernelId) ?_
  rintro m₁ m₂ ⟨patched, plain, main, hmain⟩
  rw [← plain] at agree
  refine InStep.bind_result (Link.inlined_inStep patched agree hmain) ?_
  rintro ⟨calls, m₁⟩ ⟨_, m₂⟩ ⟨rfl, inlined, clean⟩
  refine InStep.bind_result (Link.onMain_inStep (fun ls n hn calls l hl => (Line.noCall_dropElements hn calls l hl).1) inlined clean) ?_
  rintro ⟨chains, m₁⟩ ⟨_, m₂⟩ ⟨rfl, chained, clean⟩
  refine InStep.bind_result (Link.onMain_inStep (fun ls n _ calls => ?_) chained clean) ?_
  · exact List.forall_mem_map.mpr fun l hl => (Line.isCall_defineLanes l).trans (calls l hl)
  rintro ⟨lanes, m₁⟩ ⟨_, m₂⟩ ⟨rfl, lowered, clean⟩
  refine InStep.bind_result (R := fun _ _ => True) (.ok trivial) ?_
  rintro ⟨⟩ ⟨⟩ -
  refine InStep.bind_result (lowered.removeUnused clean) ?_
  rintro ⟨removed, m⟩ _ rfl
  refine InStep.bind_result (.refl _) ?_
  rintro ⟨fused, m⟩ _ rfl
  refine InStep.bind_result (R := fun _ _ => True) (.ok trivial) ?_
  rintro ⟨⟩ ⟨⟩ -
  exact .ok ⟨rfl, rfl⟩

/-- An entry that stores, with parameters of these names. -/
def Link.entry (pointer value : Text) : Block :=
  ⟨.function, [⟨"%k = OpFunction %void".toList⟩, ⟨pointer ++ " = OpFunctionParameter %t".toList⟩,
    ⟨value ++ " = OpFunctionParameter %t".toList⟩, ⟨"%l = OpLabel".toList⟩, ⟨"OpStore ".toList ++ pointer ++ ' ' :: value⟩,
    ⟨"%e = OpFunctionCall %void %h".toList⟩, ⟨"OpReturn".toList⟩, ⟨"OpFunctionEnd".toList⟩]⟩

def Link.helper : Block :=
  ⟨.function, ["%h = OpFunction %void", "%m = OpLabel", "OpReturn", "OpFunctionEnd"].map fun s => ⟨s.toList⟩⟩

/-- The kernel with its entry first. -/
def Link.entryFirst (pointer value : Text) : Module :=
  ⟨[⟨.header, [⟨"OpCapability Kernel".toList⟩]⟩, ⟨.decorations, [⟨"OpDecorate %x Function".toList⟩]⟩, ⟨.definitions, []⟩,
    Link.entry pointer value, Link.helper]⟩

/-- The kernel with its helper first, and with a declaration. -/
def Link.helperFirst (pointer value : Text) : Module :=
  ⟨[⟨.header, []⟩, ⟨.decorations, []⟩, ⟨.definitions, []⟩, Link.helper,
    ⟨.declaration, [⟨"%d = OpFunction %void".toList⟩, ⟨"OpFunctionEnd".toList⟩]⟩, Link.entry pointer value]⟩

/-- A wrapper that calls its kernel, and again through a function of its own. -/
def Link.callingTwice : Module :=
  ⟨[⟨.header, [⟨"%RS_KERNELS = OpString \"%k \"".toList⟩]⟩, ⟨.decorations, []⟩, ⟨.definitions, []⟩, ⟨.globalVariables, []⟩,
    ⟨.function, ["%again = OpFunction %void", "%p = OpFunctionParameter %t", "%q = OpFunctionParameter %t", "%la = OpLabel",
      "%f = OpFunctionCall %void %rs_linker_k %p %q", "OpReturn", "OpFunctionEnd"].map fun s => ⟨s.toList⟩⟩,
    ⟨.main, ["%main = OpFunction %void", "%lm = OpLabel", "%c = OpFunctionCall %void %RS_SPIRV_DUMMY_ %out %in",
      "%d = OpFunctionCall %void %again %out %in", "OpReturn", "OpFunctionEnd"].map fun s => ⟨s.toList⟩⟩]⟩

/-- The keys in the other direction. -/
@[reducible]
def KeyOrder.reversed (order : KeyOrder) : KeyOrder where
  keys f copy owned := (order.keys f copy owned).reverse
  nodup f copy owned := List.nodup_reverse.mpr (order.nodup f copy owned)
  mem_keys := List.mem_reverse.trans order.mem_keys

/-- The two links give one module, whichever way the names in the second copy are changed. -/
theorem linkModules_reordered_helper : ∃ out₁ out₂,
    (@linkModules .listed .standard (Link.entryFirst "%x".toList "%y".toList) Link.callingTwice).result = .ok out₁ ∧
      (@linkModules (.reversed .listed) .standard (Link.helperFirst "%x".toList "%y".toList) Link.callingTwice).result = .ok out₂ ∧
      out₁.module = out₂.module ∧ out₁.stats.inlinedCalls = 5 ∧ out₂.stats.inlinedCalls = 5 := by
  have parts₁ : Splice.KernelParts (Link.entryFirst "%x".toList "%y".toList) ⟨.definitions, []⟩ none _ :=
    ⟨⟨_, _, rfl, rfl, rfl⟩, rfl, fun _ h => (by cases h), (by decide)⟩
  have parts₂ : Splice.KernelParts (Link.helperFirst "%x".toList "%y".toList) ⟨.definitions, []⟩ none _ :=
    ⟨⟨_, _, rfl, rfl, rfl⟩, rfl, fun _ h => (by cases h), (by decide)⟩
  have perm : (Link.entryFirst "%x".toList "%y".toList).functions.Perm (Link.helperFirst "%x".toList "%y".toList).functions :=
    List.Perm.swap ..
  have distinct : ((Link.prepared .standard (Link.entryFirst "%x".toList "%y".toList)).functions.filterMap
      fun f => f.name.toOption).Nodup := by
    decide +kernel
  have unsuffixed : ∀ f ∈ Link.callingTwice.plainFunctions ++
      (Link.prepared .standard (Link.entryFirst "%x".toList "%y".toList)).functions, ∀ id ∈ f.owned,
        Inlining.isCopyName id = false := by
    decide +kernel
  have alike := @linkModules_reordered .listed (.reversed .listed) _ _ _ _ _ _ _ parts₁ parts₂ perm distinct
    Link.callingTwice fun f hf => .of_unsuffixed (unsuffixed f hf)
  have links : ((@linkModules .listed .standard (Link.entryFirst "%x".toList "%y".toList) Link.callingTwice).result.map
      fun out => out.stats.inlinedCalls) = .ok 5 := by
    decide +kernel
  obtain ⟨out₁, hout₁, calls⟩ := map_eq_ok.mp links
  obtain ⟨out₂, hout₂, modules, stats⟩ := (inStep_iff.mp alike).1 out₁ hout₁
  exact ⟨out₁, out₂, hout₁, hout₂, modules, calls, (congrArg LinkStats.inlinedCalls stats).symm.trans calls⟩

/-- What a module stores. -/
def Link.stores (m : Module) : List Line :=
  m.lines.filter (Line.hasOpcode "OpStore".toList)

/-- One parameter of the entry has the name of the other with the number of the second copy
    behind it. -/
def Link.meetingKernel : Module :=
  Link.entryFirst "%a_inl2".toList "%a".toList

/-- Two links of the same modules give two modules, as the second copy of the entry gets its
    two arguments, or the first one twice. -/
theorem linkModules_order_shows :
    ((Link.callingTwice.functions ++ (Link.prepared .standard Link.meetingKernel).functions).filterMap
      fun f => f.name.toOption).Nodup ∧
    ∃ out₁ out₂, (@linkModules (.reversed .listed) .standard Link.meetingKernel Link.callingTwice).result = .ok out₁ ∧
      (@linkModules .listed .standard Link.meetingKernel Link.callingTwice).result = .ok out₂ ∧
      Link.stores out₁.module = [⟨"OpStore %out %in".toList⟩, ⟨"OpStore %out %in".toList⟩] ∧
      Link.stores out₂.module = [⟨"OpStore %out %in".toList⟩, ⟨"OpStore %out %out".toList⟩] ∧
      out₁.module ≠ out₂.module := by
  have stores₁ : ((@linkModules (.reversed .listed) .standard Link.meetingKernel Link.callingTwice).result.map
      fun out => Link.stores out.module) = .ok [⟨"OpStore %out %in".toList⟩, ⟨"OpStore %out %in".toList⟩] := by
    decide +kernel
  have stores₂ : ((@linkModules .listed .standard Link.meetingKernel Link.callingTwice).result.map
      fun out => Link.stores out.module) = .ok [⟨"OpStore %out %in".toList⟩, ⟨"OpStore %out %out".toList⟩] := by
    decide +kernel
  obtain ⟨out₁, hout₁, hstores₁⟩ := map_eq_ok.mp stores₁
  obtain ⟨out₂, hout₂, hstores₂⟩ := map_eq_ok.mp stores₂
  refine ⟨by decide +kernel, out₁, out₂, hout₁, hout₂, hstores₁, hstores₂, fun same => ?_⟩
  rw [same, hstores₂] at hstores₁
  exact absurd hstores₁ (by decide)

end SpirvLink
