/-
  SpirvLink.Proofs.Module — main and the plain functions of a module.

  Giving main other lines changes one block and no other (`exists_of_main?`), so calls are
  resolved as before (`plainFunctions_setMain`). Where each identifier is defined by one
  line, no two blocks define the same one (`DefinesOnce.block_eq`).
-/

import Mathlib.Data.List.Pairwise
import SpirvLink.Proofs.Function

namespace SpirvLink

namespace Module

variable {m : Module}

/-- The functions that a call in main can be replaced by. -/
def plainFunctions (m : Module) : List Function :=
  (m.blocks.filter fun b => b.kind == .function).map fun b => ⟨b.lines⟩

/-- Every block but the first main function. -/
def otherBlocks (m : Module) : List Block :=
  m.blocks.eraseP Block.isMain

theorem mem_plainFunctions {f : Function} : f ∈ m.plainFunctions ↔ ⟨.function, f.lines⟩ ∈ m.blocks := by
  simp only [plainFunctions, List.mem_map, List.mem_filter, beq_iff_eq]
  constructor
  · rintro ⟨⟨kind, lines⟩, ⟨hb, rfl⟩, rfl⟩
    exact hb
  · intro h
    exact ⟨_, ⟨h, rfl⟩, rfl⟩

theorem mem_lines_of_plain {f : Function} (hf : f ∈ m.plainFunctions) {l : Line} (hl : l ∈ f.lines) :
    l ∈ m.lines :=
  List.mem_flatMap.mpr ⟨_, mem_plainFunctions.mp hf, hl⟩

/-- A call is resolved when one plain function, and no second, has the name. -/
theorem resolve_eq_ok {callee : Text} {f : Function} : Inlining.resolve m callee = .ok f ↔
    m.plainFunctions.filter (Function.isNamed callee) = [f] := by
  have found : m.plainFunctions.filter (Function.isNamed callee) =
      (m.blocks.filter fun b => b.kind == .function && b.isFunctionNamed callee).map
        fun b => (⟨b.lines⟩ : Function) := by
    rw [plainFunctions, List.filter_map, List.filter_filter]
    congr 1
    refine List.filter_congr fun b _ => ?_
    cases hk : b.kind == BlockKind.function <;>
      simp [Block.isFunctionNamed, Block.function?, Block.hasBody, hk]
  rw [found, Inlining.resolve]
  split
  · next b hb => simp [hb]
  · next hne =>
    refine ⟨fun h => (by cases h), fun h => ?_⟩
    obtain ⟨b, hb, -⟩ := List.map_eq_singleton_iff.mp h
    exact absurd hb (hne b)

theorem plain_of_resolve {callee : Text} {f : Function} (h : Inlining.resolve m callee = .ok f) :
    f ∈ m.plainFunctions ∧ f.name = .ok callee := by
  have hf : f ∈ m.plainFunctions.filter (Function.isNamed callee) := by
    rw [resolve_eq_ok.mp h]
    exact List.mem_singleton.mpr rfl
  exact ⟨(List.mem_filter.mp hf).1, Function.isNamed_iff.mp (List.mem_filter.mp hf).2⟩

/-! ## Main -/

/-- Main is one block of the module, and other lines for main change that block alone. -/
theorem exists_of_main? {main : Function} (h : m.main? = some main) :
    ∃ before after, m.blocks = before ++ ⟨.main, main.lines⟩ :: after ∧
      (∀ b ∈ before, b.isMain = false) ∧
      ∀ lines, (m.setMain lines).blocks = before ++ ⟨.main, lines⟩ :: after := by
  obtain ⟨b, hb, rfl⟩ := Option.map_eq_some_iff.mp h
  obtain ⟨hmain, before, after, hm, hbefore⟩ := List.find?_eq_some_iff_append.mp hb
  have hbefore : ∀ b ∈ before, b.isMain = false := by
    intro b hb
    simpa using hbefore b hb
  have kind : b = ⟨.main, b.lines⟩ := by
    obtain ⟨kind, lines⟩ := b
    have : kind = .main := by simpa [Block.isMain] using hmain
    rw [this]
  refine ⟨before, after, by rw [hm]; exact congrArg _ (congrArg (· :: after) kind), hbefore, fun lines => ?_⟩
  have go : ∀ bs : List Block, (∀ b ∈ bs, b.isMain = false) →
      setMain.go lines (bs ++ b :: after) = bs ++ ⟨.main, lines⟩ :: after := by
    intro bs hbs
    induction bs with
    | nil =>
      rw [List.nil_append, setMain.go, if_pos hmain, kind]
      rfl
    | cons c bs ih =>
      rw [List.cons_append, setMain.go, if_neg (by simp [hbs c (List.mem_cons_self ..)]),
        ih fun d hd => hbs d (List.mem_cons_of_mem _ hd)]
      rfl
  rw [setMain, hm]
  exact go before hbefore

variable {main : Function}

theorem main?_setMain (h : m.main? = some main) (lines : List Line) :
    (m.setMain lines).main? = some ⟨lines⟩ := by
  obtain ⟨before, after, -, hbefore, hset⟩ := exists_of_main? h
  rw [main?, hset, List.find?_append, List.find?_eq_none.mpr fun b hb => by simp [hbefore b hb]]
  rfl

theorem setMain_setMain (lines lines' : List Line) (m : Module) :
    (m.setMain lines).setMain lines' = m.setMain lines' := by
  have go : ∀ bs, setMain.go lines' (setMain.go lines bs) = setMain.go lines' bs := by
    intro bs
    induction bs with
    | nil => rfl
    | cons b bs ih =>
      by_cases hb : b.isMain = true
      · have hb' : ({ b with lines := lines } : Block).isMain = true := hb
        rw [setMain.go, if_pos hb, setMain.go, if_pos hb', setMain.go, if_pos hb]
      · rw [setMain.go, if_neg hb, setMain.go, if_neg hb, setMain.go, if_neg hb, ih]
  exact congrArg Module.mk (go m.blocks)

theorem setMain_self {main : Function} (h : m.main? = some main) : m.setMain main.lines = m := by
  obtain ⟨before, after, hm, -, hset⟩ := exists_of_main? h
  exact congrArg Module.mk ((hset main.lines).trans hm.symm)

theorem setMain_inj {main : Function} (h : m.main? = some main) {lines lines' : List Line}
    (he : m.setMain lines = m.setMain lines') : lines = lines' := by
  have mains := congrArg main? he
  rw [main?_setMain h, main?_setMain h] at mains
  exact congrArg Function.lines (Option.some.inj mains)

theorem plainFunctions_setMain {main : Function} (h : m.main? = some main) (lines : List Line) :
    (m.setMain lines).plainFunctions = m.plainFunctions := by
  obtain ⟨before, after, hm, -, hset⟩ := exists_of_main? h
  rw [plainFunctions, hset, plainFunctions, hm, List.filter_append, List.filter_append,
    List.filter_cons_of_neg (by simp), List.filter_cons_of_neg (by simp)]

theorem otherBlocks_setMain {main : Function} (h : m.main? = some main) (lines : List Line) :
    (m.setMain lines).otherBlocks = m.otherBlocks := by
  obtain ⟨before, after, hm, hbefore, hset⟩ := exists_of_main? h
  have erase : ∀ ls, (before ++ (⟨.main, ls⟩ : Block) :: after).eraseP Block.isMain = before ++ after := by
    intro ls
    rw [List.eraseP_append_right _ fun b hb => by simp [hbefore b hb], List.eraseP_cons_of_pos rfl]
  rw [otherBlocks, hset, otherBlocks, hm, erase, erase]

theorem resolve_setMain {main : Function} (h : m.main? = some main) (lines : List Line) (callee : Text) :
    Inlining.resolve (m.setMain lines) callee = Inlining.resolve m callee := by
  have filter : ∀ m' : Module, m'.blocks.filter (fun b => b.kind == .function && b.isFunctionNamed callee) =
      (m'.blocks.filter fun b => b.kind == .function).filter (Block.isFunctionNamed callee) := by
    intro m'
    rw [List.filter_filter]
    exact List.filter_congr fun b _ => Bool.and_comm ..
  obtain ⟨before, after, hm, -, hset⟩ := exists_of_main? h
  rw [Inlining.resolve, Inlining.resolve, filter, filter, hset, hm, List.filter_append before,
    List.filter_append before, List.filter_cons_of_neg (by simp), List.filter_cons_of_neg (by simp)]

theorem main_mem {main : Function} (h : m.main? = some main) : ⟨.main, main.lines⟩ ∈ m.blocks := by
  obtain ⟨before, after, hm, -, -⟩ := exists_of_main? h
  rw [hm]
  exact List.mem_append_right _ (List.mem_cons_self ..)

/-! ## Every line changed -/

theorem lines_mapLines (f : Line → Line) (m : Module) : (m.mapLines f).lines = m.lines.map f := by
  simp [lines, mapLines, mapBlocks, Block.mapLines, List.flatMap_map, List.map_flatMap]

theorem functions_mapLines (f : Line → Line) (m : Module) :
    (m.mapLines f).functions = m.functions.map fun g => ⟨g.lines.map f⟩ := by
  rw [functions, functions, mapLines, mapBlocks, List.filterMap_map, List.map_filterMap]
  refine List.filterMap_congr fun b _ => ?_
  show (if b.hasBody then _ else _) = (if b.hasBody then _ else _ : Option Function).map _
  split <;> rfl

/-! ## Blocks by kind -/

def blocksOf (k : BlockKind) (m : Module) : List Block :=
  m.blocks.filter fun b => b.kind == k

/-- The lines of all blocks of a kind. -/
def linesOfKind (k : BlockKind) (m : Module) : List Line :=
  (m.blocksOf k).flatMap Block.lines

variable {b : Block} {k : BlockKind}

theorem mem_blocksOf : b ∈ m.blocksOf k ↔ b ∈ m.blocks ∧ b.kind = k := by
  rw [blocksOf, List.mem_filter, beq_iff_eq]

theorem mem_linesOfKind {l : Line} : l ∈ m.linesOfKind k ↔ ∃ b ∈ m.blocks, b.kind = k ∧ l ∈ b.lines := by
  simp only [linesOfKind, List.mem_flatMap, mem_blocksOf, and_assoc]

theorem blocksOf_setMain {main : Function} (h : m.main? = some main) (hk : k ≠ .main) (lines : List Line) :
    (m.setMain lines).blocksOf k = m.blocksOf k := by
  obtain ⟨before, after, hm, -, hset⟩ := exists_of_main? h
  rw [blocksOf, blocksOf, hset, hm, List.filter_append, List.filter_append, List.filter_cons_of_neg (by simpa using hk.symm),
    List.filter_cons_of_neg (by simpa using hk.symm)]

/-! ## One line for each identifier -/

/-- Each identifier is defined by at most one line. -/
def DefinesOnce (m : Module) : Prop :=
  (m.lines.filterMap Line.defined?).Nodup

instance (m : Module) : Decidable m.DefinesOnce :=
  inferInstanceAs (Decidable (List.Nodup _))

theorem DefinesOnce.block_nodup (h : m.DefinesOnce) {b : Block} (hb : b ∈ m.blocks) :
    (b.lines.filterMap Line.defined?).Nodup := by
  rw [DefinesOnce, lines, List.filterMap_flatMap, List.nodup_flatMap] at h
  exact h.1 b hb

theorem DefinesOnce.block_eq (h : m.DefinesOnce) {b c : Block} (hb : b ∈ m.blocks) (hc : c ∈ m.blocks)
    {id : Text} (hib : id ∈ b.lines.filterMap Line.defined?) (hic : id ∈ c.lines.filterMap Line.defined?) :
    b = c := by
  rw [DefinesOnce, lines, List.filterMap_flatMap, List.nodup_flatMap] at h
  by_contra hne
  have symm : Std.Symm (Function.onFun List.Disjoint fun b : Block => b.lines.filterMap Line.defined?) :=
    ⟨fun _ _ hd _ hy hx => hd hx hy⟩
  exact h.2.forall hb hc hne hib hic

theorem mem_functions {b : Block} (hb : b ∈ m.blocks) (hbody : b.hasBody = true) : ⟨b.lines⟩ ∈ m.functions :=
  List.mem_filterMap.mpr ⟨b, hb, if_pos hbody⟩

theorem plain_mem_functions {f : Function} (hf : f ∈ m.plainFunctions) : f ∈ m.functions :=
  mem_functions (mem_plainFunctions.mp hf) rfl

theorem exists_block {f : Function} (hf : f ∈ m.functions) :
    ∃ b ∈ m.blocks, b.hasBody = true ∧ b.lines = f.lines := by
  obtain ⟨b, hb, hf⟩ := List.mem_filterMap.mp hf
  unfold Block.function? at hf
  split at hf
  · next hbody =>
    cases hf
    exact ⟨b, hb, hbody, rfl⟩
  · cases hf

theorem mem_lines_of_function {f : Function} (hf : f ∈ m.functions) {l : Line} (hl : l ∈ f.lines) :
    l ∈ m.lines := by
  obtain ⟨b, hb, -, heq⟩ := exists_block hf
  exact List.mem_flatMap.mpr ⟨b, hb, heq ▸ hl⟩

/-- No two functions have one name. -/
theorem DefinesOnce.names_nodup (h : m.DefinesOnce) (named : ∀ f ∈ m.functions, ∃ name, f.name = .ok name) :
    (m.functions.map Function.name).Nodup := by
  rw [DefinesOnce, lines, List.filterMap_flatMap, List.nodup_flatMap] at h
  rw [List.Nodup, List.pairwise_map, functions, List.pairwise_filterMap]
  refine h.2.imp_of_mem fun {b c} hb hc hdisj f hf g hg heq => ?_
  obtain ⟨name, hname⟩ := named f (List.mem_filterMap.mpr ⟨b, hb, hf⟩)
  have defined : ∀ {d : Block} {k : Function}, d.function? = some k → k.name = .ok name →
      name ∈ d.lines.filterMap Line.defined? := by
    intro d k hk hkn
    unfold Block.function? at hk
    split at hk
    · cases hk
      obtain ⟨first, rest, hlines, hd, -⟩ := Function.name_eq_ok.mp hkn
      have hfirst : first ∈ (⟨d.lines⟩ : Function).lines := by
        rw [hlines]
        exact List.mem_cons_self ..
      exact List.mem_filterMap.mpr ⟨first, hfirst, hd⟩
    · cases hk
  exact hdisj (defined hf hname) (defined hg (heq ▸ hname))

end Module

/-- What belongs to one function alone: the parameters and what the body defines. The body
    of main is all that follows its declaration. -/
def Block.localIds (b : Block) : List Text :=
  match b.kind with
  | .function => (⟨b.lines⟩ : Function).owned
  | .main => b.lines.tail.filterMap Line.defined?
  | _ => []

theorem Block.hasBody_of_localIds {b : Block} {id : Text} (h : id ∈ b.localIds) : b.hasBody = true := by
  obtain ⟨kind, lines⟩ := b
  cases kind with
  | function => rfl
  | main => rfl
  | _ => cases h

/-- The identifier belongs to a function of the module, or to main. -/
def Module.IsLocal (m : Module) (id : Text) : Prop :=
  ∃ b ∈ m.blocks, id ∈ b.localIds

instance (m : Module) (id : Text) : Decidable (m.IsLocal id) :=
  inferInstanceAs (Decidable (∃ _ ∈ _, _))

end SpirvLink
