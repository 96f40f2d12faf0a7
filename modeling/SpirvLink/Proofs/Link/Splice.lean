/-
  SpirvLink.Proofs.Link.Splice — what the joined module is made of.

  Each check of the splice says what it lets through. So a joined module starts with the
  wrapper's header and has no other one, has the wrapper's main as its only main function,
  and has as plain functions those of the wrapper and all functions of the kernel
  (`Joined`, `joined_of_splice`).
-/

import SpirvLink.Link.Splice
import SpirvLink.Proofs.Module
import SpirvLink.Proofs.Success

namespace SpirvLink

namespace Splice

variable {role : ModuleRole} {kind : BlockKind} {bs rest fs : List Block} {b : Block}

theorem expect_eq_ok : expect role kind bs = .ok (b, rest) ↔ bs = b :: rest ∧ b.kind = kind := by
  cases bs with
  | nil => simp [expect]
  | cons c bs =>
    rw [expect]
    split
    · next hk =>
      constructor
      · intro h
        cases h
        exact ⟨rfl, hk⟩
      · rintro ⟨h, -⟩
        cases h
        rfl
    · next hk =>
      constructor
      · intro h
        cases h
      · rintro ⟨h, hb⟩
        cases h
        exact absurd hb hk

theorem takeVariables_eq (bs : List Block) :
    (takeVariables bs).1 ++ (takeVariables bs).2 = bs ∧ ∀ b ∈ (takeVariables bs).1, b.kind = .globalVariables := by
  cases bs with
  | nil => exact ⟨rfl, fun b hb => (by cases hb)⟩
  | cons b bs =>
    rw [takeVariables]
    split
    · next hk => exact ⟨rfl, fun c hc => List.mem_singleton.mp hc ▸ hk⟩
    · exact ⟨rfl, fun c hc => (by cases hc)⟩

theorem takeVariables_append {vs rest : List Block} (hvs : vs = [] ∨ ∃ b, vs = [b] ∧ b.kind = .globalVariables)
    (hrest : ∀ b ∈ rest, b.kind ≠ .globalVariables) : takeVariables (vs ++ rest) = (vs, rest) := by
  rcases hvs with rfl | ⟨b, rfl, hb⟩
  · cases rest with
    | nil => rfl
    | cons c rest => rw [List.nil_append, takeVariables, if_neg (hrest c (List.mem_cons_self ..))]
  · rw [List.singleton_append, takeVariables, if_pos hb]

/-- The wrapper ends with functions, declarations and one main function. -/
theorem checkWrapperRest_eq_ok : ∀ {hasMain : Bool} {bs : List Block}, checkWrapperRest hasMain bs = .ok () ↔
    bs.countP Block.isMain = (if hasMain then 0 else 1) ∧
      ∀ b ∈ bs, b.hasBody = true ∨ b.kind = .declaration
  | hasMain, [] => by cases hasMain <;> simp [checkWrapperRest]
  | hasMain, b :: bs => by
    rw [checkWrapperRest, List.forall_mem_cons]
    cases hk : b.kind
    case main =>
      have body : b.hasBody = true := by simp [Block.hasBody, hk]
      rw [List.countP_cons_of_pos (by simp [Block.isMain, hk])]
      cases hasMain with
      | true => simp
      | false => simp [checkWrapperRest_eq_ok, body]
    case function =>
      have body : b.hasBody = true := by simp [Block.hasBody, hk]
      simp [checkWrapperRest_eq_ok, body, Block.isMain, hk]
    case declaration => simp [checkWrapperRest_eq_ok, Block.isMain, hk]
    all_goals simp [Block.hasBody, hk]

/-- A function is taken as a plain one if it does not call itself. -/
theorem kernelFunctions_cons (hb : b.hasBody = true) : kernelFunctions (b :: bs) = .ok fs ↔
    (⟨b.lines⟩ : Function).callsItself = .ok false ∧
      ∃ rest, kernelFunctions bs = .ok rest ∧ fs = ⟨.function, b.lines⟩ :: rest := by
  have taken : (do
      let f : Function := ⟨b.lines⟩
      if ← f.callsItself then throw (LinkError.recursiveFunction (← f.name))
      return ⟨.function, b.lines⟩ :: (← kernelFunctions bs) : Except LinkError (List Block)) = .ok fs ↔
      (⟨b.lines⟩ : Function).callsItself = .ok false ∧
        ∃ rest, kernelFunctions bs = .ok rest ∧ fs = ⟨.function, b.lines⟩ :: rest := by
    constructor
    · intro h
      obtain ⟨self, hself, h⟩ := bind_eq_ok.mp h
      cases self with
      | true =>
        obtain ⟨-, h, -⟩ := bind_eq_ok.mp h
        obtain ⟨name, -, h⟩ := bind_eq_ok.mp h
        cases h
      | false =>
        obtain ⟨-, -, h⟩ := bind_eq_ok.mp h
        obtain ⟨rest, hrest, h⟩ := bind_eq_ok.mp h
        cases h
        exact ⟨hself, rest, hrest, rfl⟩
    · rintro ⟨hself, rest, hrest, rfl⟩
      simp only [hself, hrest]
      rfl
  rw [kernelFunctions]
  cases hk : b.kind
  case function => exact taken
  case main => exact taken
  all_goals
    rw [Block.hasBody, hk] at hb
    cases hb

theorem kernelFunctions_cons_declaration (hb : b.kind = .declaration) : kernelFunctions (b :: bs) = kernelFunctions bs := by
  rw [kernelFunctions, hb]

/-- The kernel ends with functions, none of which calls itself and which all become plain
    ones, and with declarations. -/
theorem kernelFunctions_iff : ∀ {bs fs : List Block}, kernelFunctions bs = .ok fs ↔
    (∀ b ∈ bs, b.hasBody = true ∨ b.kind = .declaration) ∧
      (∀ b ∈ bs.filter Block.hasBody, (⟨b.lines⟩ : Function).callsItself = .ok false) ∧
      fs = (bs.filter Block.hasBody).map fun b => ⟨.function, b.lines⟩
  | [], fs => by
    constructor
    · intro h
      cases h
      exact ⟨fun _ h => (by cases h), fun _ h => (by cases h), rfl⟩
    · rintro ⟨-, -, rfl⟩
      rfl
  | b :: bs, fs => by
    cases hb : b.hasBody with
    | true =>
      rw [kernelFunctions_cons hb, List.filter_cons_of_pos hb, List.forall_mem_cons, List.forall_mem_cons]
      constructor
      · rintro ⟨hself, rest, hrest, rfl⟩
        obtain ⟨kinds, others, rfl⟩ := kernelFunctions_iff.mp hrest
        exact ⟨⟨Or.inl hb, kinds⟩, ⟨hself, others⟩, rfl⟩
      · rintro ⟨⟨-, kinds⟩, ⟨hself, others⟩, rfl⟩
        exact ⟨hself, _, kernelFunctions_iff.mpr ⟨kinds, others, rfl⟩, rfl⟩
    | false =>
      rw [List.filter_cons_of_neg (by simp [hb]), List.forall_mem_cons]
      by_cases hk : b.kind = .declaration
      · rw [kernelFunctions_cons_declaration hk, kernelFunctions_iff]
        exact and_congr_left fun _ => ⟨fun h => ⟨Or.inr hk, h⟩, fun h => h.2⟩
      · refine ⟨fun h => ?_, fun h => absurd h.1.1 (by simp [hb, hk])⟩
        rw [kernelFunctions] at h
        cases he : b.kind <;> rw [he] at h
        case function => simp [Block.hasBody, he] at hb
        case main => simp [Block.hasBody, he] at hb
        case declaration => exact absurd he hk
        all_goals cases h

end Splice

/-! ## The joined module -/

/-- A module that was joined from a kernel and a wrapper. -/
structure Joined (kernel wrapper m : Module) : Prop where
  header : ∃ header rest, m.blocks = header :: rest ∧ wrapper.header? = some header ∧ header.kind = .header ∧
    ∀ b ∈ rest, b.kind ≠ .header
  oneMain : m.blocks.countP Block.isMain = 1
  main : ∀ b ∈ m.blocks, b.isMain = true → b ∈ wrapper.blocks
  functions : m.plainFunctions = wrapper.plainFunctions ++ kernel.functions

/-- The parts of a splice, by their places in the three modules. -/
structure Spliced (kernel wrapper m : Module) where
  header : Block
  decorations : Block
  definitions : Block
  globals : Block
  rest : List Block
  kernelHeader : Block
  kernelDecorations : Block
  kernelDefinitions : Block
  kernelGlobals : List Block
  kernelRest : List Block
  wrapper : wrapper.blocks = header :: decorations :: definitions :: globals :: rest
  kernel : kernel.blocks = kernelHeader :: kernelDecorations :: kernelDefinitions :: (kernelGlobals ++ kernelRest)
  blocks : m.blocks = header :: decorations :: definitions :: kernelDefinitions :: globals ::
    (kernelGlobals ++ (rest ++ (kernelRest.filter Block.hasBody).map fun b => ⟨.function, b.lines⟩))
  headerKind : header.kind = .header ∧ kernelHeader.kind = .header
  decorationsKind : decorations.kind = .decorations ∧ kernelDecorations.kind = .decorations
  definitionsKind : definitions.kind = .definitions ∧ kernelDefinitions.kind = .definitions
  globalsKind : globals.kind = .globalVariables ∧ ∀ b ∈ kernelGlobals, b.kind = .globalVariables
  check : Splice.checkWrapperRest false rest = .ok ()

/-- The kinds that a wrapper starts with. A kernel starts with all but the last. -/
def Splice.frontKinds : List BlockKind :=
  [.header, .decorations, .definitions, .globalVariables]

theorem Splice.map_kind_eq_frontKinds {front : List Block} : front.map Block.kind = frontKinds ↔
    ∃ header decorations definitions globals, front = [header, decorations, definitions, globals] ∧ header.kind = .header ∧
      decorations.kind = .decorations ∧ definitions.kind = .definitions ∧ globals.kind = .globalVariables := by
  constructor
  · intro kinds
    simp only [frontKinds, List.map_eq_cons_iff, List.map_eq_nil_iff] at kinds
    obtain ⟨header, _, rfl, h1, decorations, _, rfl, h2, definitions, _, rfl, h3, globals, _, rfl, h4, rfl⟩ := kinds
    exact ⟨header, decorations, definitions, globals, rfl, h1, h2, h3, h4⟩
  · rintro ⟨header, decorations, definitions, globals, rfl, h1, h2, h3, h4⟩
    simp [frontKinds, h1, h2, h3, h4]

theorem Splice.map_kind_eq_kernelKinds {front : List Block} : front.map Block.kind = frontKinds.take 3 ↔
    ∃ header decorations definitions, front = [header, decorations, definitions] ∧ header.kind = .header ∧
      decorations.kind = .decorations ∧ definitions.kind = .definitions := by
  constructor
  · intro kinds
    simp only [frontKinds, List.take_succ_cons, List.take_zero, List.map_eq_cons_iff, List.map_eq_nil_iff] at kinds
    obtain ⟨header, _, rfl, h1, decorations, _, rfl, h2, definitions, _, rfl, h3, rfl⟩ := kinds
    exact ⟨header, decorations, definitions, rfl, h1, h2, h3⟩
  · rintro ⟨header, decorations, definitions, rfl, h1, h2, h3⟩
    simp [frontKinds, h1, h2, h3]

/-- What a splice takes from both modules, and what becomes of it. -/
theorem splice_eq_ok {kernel wrapper m : Module} : splice kernel wrapper = .ok m ↔
    ∃ front rest kernelFront kernelRest functions,
      (wrapper.blocks = front ++ rest ∧ front.map Block.kind = Splice.frontKinds) ∧
      (kernel.blocks = kernelFront ++ kernelRest ∧ kernelFront.map Block.kind = Splice.frontKinds.take 3) ∧
      Splice.checkWrapperRest false rest = .ok () ∧
      Splice.kernelFunctions (Splice.takeVariables kernelRest).2 = .ok functions ∧
      m = ⟨front.take 3 ++ kernelFront.drop 2 ++ front.drop 3 ++ (Splice.takeVariables kernelRest).1 ++ rest ++ functions⟩ := by
  constructor
  · intro h
    unfold splice at h
    obtain ⟨⟨header, w⟩, h1, h⟩ := bind_eq_ok.mp h
    obtain ⟨⟨kernelHeader, k⟩, k1, h⟩ := bind_eq_ok.mp h
    obtain ⟨⟨decorations, w'⟩, h2, h⟩ := bind_eq_ok.mp h
    obtain ⟨⟨kernelDecorations, k'⟩, k2, h⟩ := bind_eq_ok.mp h
    obtain ⟨⟨definitions, w''⟩, h3, h⟩ := bind_eq_ok.mp h
    obtain ⟨⟨kernelDefinitions, k''⟩, k3, h⟩ := bind_eq_ok.mp h
    obtain ⟨⟨globals, rest⟩, h4, h⟩ := bind_eq_ok.mp h
    obtain ⟨⟨⟩, hrest, h⟩ := bind_eq_ok.mp h
    obtain ⟨functions, hfunctions, h⟩ := bind_eq_ok.mp h
    cases h
    obtain ⟨hw, kind1⟩ := Splice.expect_eq_ok.mp h1
    obtain ⟨rfl, kind2⟩ := Splice.expect_eq_ok.mp h2
    obtain ⟨rfl, kind3⟩ := Splice.expect_eq_ok.mp h3
    obtain ⟨rfl, kind4⟩ := Splice.expect_eq_ok.mp h4
    obtain ⟨hk, kkind1⟩ := Splice.expect_eq_ok.mp k1
    obtain ⟨rfl, kkind2⟩ := Splice.expect_eq_ok.mp k2
    obtain ⟨rfl, kkind3⟩ := Splice.expect_eq_ok.mp k3
    refine ⟨[header, decorations, definitions, globals], rest, [kernelHeader, kernelDecorations, kernelDefinitions], k'',
      functions, ⟨hw, ?_⟩, ⟨hk, ?_⟩, hrest, hfunctions, rfl⟩
    · exact Splice.map_kind_eq_frontKinds.mpr ⟨_, _, _, _, rfl, kind1, kind2, kind3, kind4⟩
    · exact Splice.map_kind_eq_kernelKinds.mpr ⟨_, _, _, rfl, kkind1, kkind2, kkind3⟩
  · rintro ⟨front, rest, kernelFront, kernelRest, functions, ⟨hw, kinds⟩, ⟨hk, kkinds⟩, hrest, hfunctions, rfl⟩
    obtain ⟨header, decorations, definitions, globals, rfl, kind1, kind2, kind3, kind4⟩ :=
      Splice.map_kind_eq_frontKinds.mp kinds
    obtain ⟨kernelHeader, kernelDecorations, kernelDefinitions, rfl, kkind1, kkind2, kkind3⟩ :=
      Splice.map_kind_eq_kernelKinds.mp kkinds
    have taken : ∀ {role kind} {b : Block} {bs : List Block}, b.kind = kind → Splice.expect role kind (b :: bs) = .ok (b, bs) :=
      fun hb => Splice.expect_eq_ok.mpr ⟨rfl, hb⟩
    unfold splice
    simp only [hw, hk, List.cons_append, List.nil_append, taken kind1, taken kkind1, taken kind2, taken kkind2, taken kind3,
      taken kkind3, taken kind4, bind, Except.bind, hrest, hfunctions]
    rfl

theorem spliced_of_ok {kernel wrapper m : Module} (h : splice kernel wrapper = .ok m) : Nonempty (Spliced kernel wrapper m) := by
  obtain ⟨front, rest, kernelFront, kernelRest, functions, ⟨hw, kinds⟩, ⟨hk, kkinds⟩, hrest, hfunctions, rfl⟩ :=
    splice_eq_ok.mp h
  obtain ⟨header, decorations, definitions, globals, rfl, kind1, kind2, kind3, kind4⟩ :=
    Splice.map_kind_eq_frontKinds.mp kinds
  obtain ⟨kernelHeader, kernelDecorations, kernelDefinitions, rfl, kkind1, kkind2, kkind3⟩ :=
    Splice.map_kind_eq_kernelKinds.mp kkinds
  obtain ⟨htake, htaken⟩ := Splice.takeVariables_eq kernelRest
  obtain ⟨-, -, rfl⟩ := Splice.kernelFunctions_iff.mp hfunctions
  refine ⟨⟨header, decorations, definitions, globals, rest, kernelHeader, kernelDecorations, kernelDefinitions,
    (Splice.takeVariables kernelRest).1, (Splice.takeVariables kernelRest).2, hw, ?_, ?_, ⟨kind1, kkind1⟩, ⟨kind2, kkind2⟩,
    ⟨kind3, kkind3⟩, ⟨kind4, htaken⟩, hrest⟩⟩
  · rw [hk, htake]
    rfl
  · simp

/-- The header, the decorations and the definitions of the joined module. -/
theorem Spliced.blocksOf_front {kernel wrapper m : Module} (p : Spliced kernel wrapper m) :
    m.blocksOf .header = [p.header] ∧ m.blocksOf .decorations = [p.decorations] ∧
      m.blocksOf .definitions = [p.definitions, p.kernelDefinitions] := by
  have late : ∀ b ∈ p.kernelGlobals ++ (p.rest ++ (p.kernelRest.filter Block.hasBody).map fun b => ⟨.function, b.lines⟩),
      b.kind = .globalVariables ∨ b.hasBody = true ∨ b.kind = .declaration := by
    intro b hb
    rcases List.mem_append.mp hb with hb | hb
    · exact Or.inl (p.globalsKind.2 b hb)
    · rcases List.mem_append.mp hb with hb | hb
      · exact Or.inr ((Splice.checkWrapperRest_eq_ok.mp p.check).2 b hb)
      · obtain ⟨c, -, rfl⟩ := List.mem_map.mp hb
        exact Or.inr (Or.inl rfl)
  have none : ∀ k : BlockKind, k = .header ∨ k = .decorations ∨ k = .definitions →
      (p.kernelGlobals ++ (p.rest ++ (p.kernelRest.filter Block.hasBody).map fun b => (⟨.function, b.lines⟩ : Block))).filter
        (fun b => b.kind == k) = [] := by
    intro k hk
    refine List.filter_eq_nil_iff.mpr fun b hb he => ?_
    have := late b hb
    rw [Block.hasBody, eq_of_beq he] at this
    rcases hk with rfl | rfl | rfl <;> simp at this
  simp [Module.blocksOf, p.blocks, p.headerKind, p.decorationsKind, p.definitionsKind, p.globalsKind.1, none]

/-! ## Blocks without a body -/

section Bodiless

variable {b : Block} {bs : List Block}

theorem Block.kinds_of_not_hasBody (hb : b.hasBody = false) : b.isMain = false ∧ (b.kind == .function) = false := by
  simp only [Block.hasBody, Bool.or_eq_false_iff] at hb
  exact ⟨hb.2, hb.1⟩

theorem countP_isMain_eq_zero (h : ∀ b ∈ bs, b.isMain = false) : bs.countP Block.isMain = 0 :=
  List.countP_eq_zero.mpr fun b hb => by simp [h b hb]

theorem plain_of_bodiless (h : ∀ b ∈ bs, b.hasBody = false) : (bs.filter fun b => b.kind == .function) = [] :=
  List.filter_eq_nil_iff.mpr fun b hb => by simp [(Block.kinds_of_not_hasBody (h b hb)).2]

theorem functions_of_bodiless (h : ∀ b ∈ bs, b.hasBody = false) : bs.filterMap Block.function? = [] :=
  List.filterMap_eq_nil_iff.mpr fun b hb => if_neg (by simp [h b hb])

theorem filterMap_function? (bs : List Block) :
    bs.filterMap Block.function? = (bs.filter Block.hasBody).map fun b => ⟨b.lines⟩ := by
  rw [← List.filterMap_eq_map, List.filterMap_filter]
  rfl

end Bodiless

/-! ## The functions of the joined module -/

namespace Spliced

variable {kernel wrapper m : Module} {b : Block}

/-- The blocks between the header and the wrapper's functions. -/
def middle (p : Spliced kernel wrapper m) : List Block :=
  [p.decorations, p.definitions, p.kernelDefinitions, p.globals] ++ p.kernelGlobals

/-- The functions of the kernel, its main as a plain one. -/
def moved (p : Spliced kernel wrapper m) : List Block :=
  (p.kernelRest.filter Block.hasBody).map fun b => ⟨.function, b.lines⟩

theorem blocks_eq (p : Spliced kernel wrapper m) : m.blocks = p.header :: (p.middle ++ (p.rest ++ p.moved)) :=
  p.blocks

theorem header_bodiless (p : Spliced kernel wrapper m) : p.header.hasBody = false := by
  simp [Block.hasBody, p.headerKind]

theorem middle_bodiless (p : Spliced kernel wrapper m) : ∀ b ∈ p.middle, b.hasBody = false ∧ b.kind ≠ .header := by
  simp +contextual [middle, Block.hasBody, or_imp, forall_and, p.decorationsKind, p.definitionsKind, p.globalsKind]

theorem kind_of_moved (p : Spliced kernel wrapper m) (hb : b ∈ p.moved) : b.kind = .function := by
  obtain ⟨c, -, rfl⟩ := List.mem_map.mp hb
  rfl

/-- The header and the wrapper's last blocks apart, nothing is a header or a main function. -/
theorem header_or_rest (p : Spliced kernel wrapper m) (hb : b ∈ p.middle ++ (p.rest ++ p.moved)) :
    b ∈ p.rest ∨ b.isMain = false ∧ b.kind ≠ .header := by
  rcases List.mem_append.mp hb with hb | hb
  · obtain ⟨body, kind⟩ := p.middle_bodiless b hb
    exact Or.inr ⟨(Block.kinds_of_not_hasBody body).1, kind⟩
  · refine (List.mem_append.mp hb).imp_right fun hb => ?_
    rw [Block.isMain, p.kind_of_moved hb]
    exact ⟨rfl, fun h => (by cases h)⟩

theorem mem_rest_of_isMain (p : Spliced kernel wrapper m) (hb : b ∈ m.blocks) (hmain : b.isMain = true) : b ∈ p.rest := by
  rw [p.blocks_eq] at hb
  rcases List.mem_cons.mp hb with rfl | hb
  · rw [(Block.kinds_of_not_hasBody p.header_bodiless).1] at hmain
    cases hmain
  · refine (p.header_or_rest hb).resolve_right fun h => ?_
    rw [h.1] at hmain
    cases hmain

theorem not_header_of_tail (p : Spliced kernel wrapper m) (hb : b ∈ p.middle ++ (p.rest ++ p.moved)) : b.kind ≠ .header := by
  rcases p.header_or_rest hb with hb | hb
  · intro hk
    have := (Splice.checkWrapperRest_eq_ok.mp p.check).2 b hb
    simp [Block.hasBody, hk] at this
  · exact hb.2

theorem countP_isMain (p : Spliced kernel wrapper m) : m.blocks.countP Block.isMain = 1 := by
  have moved : ∀ b ∈ p.moved, b.isMain = false := fun b hb => by rw [Block.isMain, p.kind_of_moved hb]; rfl
  rw [p.blocks_eq, List.countP_cons_of_neg (by simp [Block.kinds_of_not_hasBody p.header_bodiless]), List.countP_append,
    List.countP_append, (Splice.checkWrapperRest_eq_ok.mp p.check).1,
    countP_isMain_eq_zero fun b hb => (Block.kinds_of_not_hasBody (p.middle_bodiless b hb).1).1, countP_isMain_eq_zero moved]
  rfl

theorem plainFunctions_wrapper (p : Spliced kernel wrapper m) :
    (wrapper.blocks.filter fun b => b.kind == .function) = p.rest.filter fun b => b.kind == .function := by
  have front : ∀ b ∈ [p.header, p.decorations, p.definitions, p.globals], b.hasBody = false := by
    simp [Block.hasBody, p.headerKind, p.decorationsKind, p.definitionsKind, p.globalsKind]
  rw [show wrapper.blocks = [p.header, p.decorations, p.definitions, p.globals] ++ p.rest from p.wrapper, List.filter_append,
    plain_of_bodiless front, List.nil_append]

theorem functions_kernel (p : Spliced kernel wrapper m) : kernel.functions = p.kernelRest.filterMap Block.function? := by
  have front : ∀ b ∈ p.kernelHeader :: p.kernelDecorations :: p.kernelDefinitions :: p.kernelGlobals, b.hasBody = false := by
    simp +contextual [Block.hasBody, p.headerKind, p.decorationsKind, p.definitionsKind, p.globalsKind]
  rw [Module.functions, show kernel.blocks = (p.kernelHeader :: p.kernelDecorations :: p.kernelDefinitions :: p.kernelGlobals) ++
    p.kernelRest from p.kernel, List.filterMap_append, functions_of_bodiless front, List.nil_append]

theorem plainFunctions_eq (p : Spliced kernel wrapper m) : m.plainFunctions = wrapper.plainFunctions ++ kernel.functions := by
  have moved : p.moved.filter (fun b => b.kind == .function) = p.moved :=
    List.filter_eq_self.mpr fun b hb => by rw [p.kind_of_moved hb]; rfl
  have bodies : p.moved.map (fun b => (⟨b.lines⟩ : Function)) = p.kernelRest.filterMap Block.function? := by
    rw [Spliced.moved, List.map_map, filterMap_function?]
    rfl
  rw [Module.plainFunctions, Module.plainFunctions, p.plainFunctions_wrapper, p.functions_kernel, p.blocks_eq,
    List.filter_cons_of_neg (by simp [Block.kinds_of_not_hasBody p.header_bodiless]), List.filter_append, List.filter_append,
    plain_of_bodiless fun b hb => (p.middle_bodiless b hb).1, moved, List.nil_append, List.map_append, bodies]

/-- The main function of the joined module is the wrapper's. -/
theorem main?_eq (p : Spliced kernel wrapper m) : m.main? = wrapper.main? := by
  have none : ∀ bs : List Block, (∀ b ∈ bs, b.isMain = false) → bs.find? Block.isMain = none :=
    fun bs h => List.find?_eq_none.mpr fun b hb => by simp [h b hb]
  have front : ∀ b ∈ [p.header, p.decorations, p.definitions, p.globals], b.isMain = false := by
    simp [Block.isMain, p.headerKind, p.decorationsKind, p.definitionsKind, p.globalsKind]
  have joined : ∀ b ∈ p.header :: p.middle, b.isMain = false :=
    List.forall_mem_cons.mpr ⟨(Block.kinds_of_not_hasBody p.header_bodiless).1,
      fun b hb => (Block.kinds_of_not_hasBody (p.middle_bodiless b hb).1).1⟩
  have moved : ∀ b ∈ p.moved, b.isMain = false := fun b hb => by rw [Block.isMain, p.kind_of_moved hb]; rfl
  rw [Module.main?, Module.main?, p.blocks_eq, p.wrapper, ← List.cons_append, List.find?_append, none _ joined,
    List.find?_append, none _ moved, show p.header :: p.decorations :: p.definitions :: p.globals :: p.rest =
      [p.header, p.decorations, p.definitions, p.globals] ++ p.rest from rfl, List.find?_append, none _ front]
  simp

end Spliced

theorem joined_of_splice {kernel wrapper m : Module} (h : splice kernel wrapper = .ok m) : Joined kernel wrapper m := by
  obtain ⟨p⟩ := spliced_of_ok h
  refine ⟨⟨p.header, _, p.blocks_eq, ?_, p.headerKind.1, fun b hb => p.not_header_of_tail hb⟩, p.countP_isMain,
    fun b hb hmain => ?_, p.plainFunctions_eq⟩
  · rw [Module.header?, p.wrapper, List.find?_cons_of_pos (by simp [p.headerKind])]
  · rw [p.wrapper]
    exact List.mem_append_right [p.header, p.decorations, p.definitions, p.globals] (p.mem_rest_of_isMain hb hmain)

end SpirvLink
