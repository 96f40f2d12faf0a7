/-
  SpirvLink.Proofs.Link.Namespacing — a prefix behind every percent sign is a renaming.

  Where every percent sign starts an identifier and what a line defines holds no quotation
  mark (`Line.Orderly`), the prefixed module is the same module with other names: each line
  and each function gives the answers it gave, with the prefix behind the percent sign of
  every identifier (`Mirrors`). No two identifiers become one, so the calls form the same
  graph (`checkCallGraph_prefixIds`), and an identifier without the prefix is none of the
  module's any more.
-/

import SpirvLink.Link.Basic
import SpirvLink.Proofs.CallGraph.Latest
import SpirvLink.Proofs.Line.Prefixing
import SpirvLink.Proofs.Module

namespace SpirvLink

open Text

/-! ## The same answers under other names -/

/-- The second line says of the renamed identifiers what the first says. An opcode is kept
    if it holds no percent sign. -/
structure Line.Mirrors (f : Text → Text) (l l' : Line) : Prop where
  ids : l'.ids = l.ids.map f
  defined : l'.defined? = l.defined?.map f
  opcode : ∀ op, sigil ∉ op → (l'.opcode? = some op ↔ l.opcode? = some op)

/-- The second function answers with the renamed identifiers where the first answers, and
    fails where the first fails. -/
structure Function.Mirrors (f : Text → Text) (g g' : Function) : Prop where
  name : g'.name.toOption = g.name.toOption.map f
  parameters : g'.parameters.toOption = g.parameters.toOption.map (List.map f)
  returned : g'.returnValue? = g.returnValue?.map f
  callees : g'.callees.toOption = g.callees.toOption.map (List.map f)

/-- Every percent sign on the line starts an identifier, and what the line defines holds no
    quotation mark. -/
structure Line.Orderly (l : Line) : Prop where
  leads : SigilsLead l.text
  unquoted : ∀ id ∈ l.defined?, '"' ∉ id

namespace Line

instance (l : Line) : Decidable l.Orderly :=
  decidable_of_iff (SigilsLead l.text ∧ ∀ id ∈ l.defined?, '"' ∉ id) ⟨fun h => ⟨h.1, h.2⟩, fun h => ⟨h.leads, h.unquoted⟩⟩

variable {p id : Text} {l : Line}

namespace Orderly

theorem prefix_id (h : l.Orderly) (hid : id ∈ l.ids) : Text.prefixIds p id = withPrefix p id :=
  prefixIds_eq_withPrefix (isIdent_of_mem hid).1 (h.leads.identifiers id hid)

theorem prefix_defined (h : l.Orderly) (hd : l.defined? = some id) : Text.prefixIds p id = withPrefix p id := by
  have name := isName_of_defined hd
  obtain ⟨⟨before, after⟩, hs, hid⟩ := Option.map_eq_some_iff.mp hd
  have inside : before <:+: l.text := by
    rw [(cutAt_eq_some.mp (halves?_eq_some.mp hs).1).1]
    exact (List.prefix_append ..).isInfix
  have leads : SigilsLead id := hid ▸ (h.leads.within inside).trim
  refine prefixIds_eq_withPrefix name.sigil (leads.not_mem_tail fun c hc => ?_)
  rw [endsIdent, name.noBlank c hc, Bool.false_or, beq_eq_false_iff_ne]
  exact fun e => h.unquoted id hd (e ▸ hc)

theorem prefix_rhsId (h : l.Orderly) (hid : id ∈ l.rhsIds) : Text.prefixIds p id = withPrefix p id := by
  rw [rhsIds, rhs?] at hid
  cases hs : l.halves? with
  | none =>
    rw [hs] at hid
    cases hid
  | some halves =>
    rw [hs] at hid
    have inside : halves.2 <:+: l.text := by
      rw [(cutAt_eq_some.mp (halves?_eq_some.mp hs).1).1]
      exact ((List.suffix_cons ..).trans (List.suffix_append ..)).isInfix
    exact prefixIds_eq_withPrefix (isIdent_of_mem hid).1 ((h.leads.within inside).trim.identifiers id hid)

end Orderly

/-- A prefixed line mirrors the line. -/
theorem mirrors_prefixIds (hp : Fits p) (h : l.Orderly) : Mirrors (withPrefix p) l (l.prefixIds p) where
  ids := (ids_prefixIds hp l).trans (List.map_congr_left fun _ hid => h.prefix_id hid)
  defined := (defined?_prefixIds hp l).trans (Option.map_congr fun _ hid => h.prefix_defined hid)
  opcode _ hop := opcode?_prefixIds_eq_some hp hop l

end Line

theorem Call.callee_mem {l : Line} {call : Call} (h : Call.ofLine l = .ok call) : call.callee ∈ l.rhsIds := by
  unfold Call.ofLine at h
  split at h
  · cases h
  · next heq =>
    cases h
    rw [heq]
    exact List.mem_cons_of_mem _ (List.mem_cons_self ..)
  · cases h

namespace Function

variable {p : Text} {f : Function}

/-- A function of prefixed lines mirrors the function. -/
theorem mirrors_prefixIds (hp : Fits p) (h : ∀ l ∈ f.lines, l.Orderly) : Mirrors (withPrefix p) f (f.prefixIds p) where
  name := by
    refine (name_prefixIds hp f).trans (Option.map_congr fun id hid => ?_)
    obtain ⟨first, rest, heq, hd, -⟩ := name_eq_ok.mp (mem_toOption.mp hid)
    exact (h first (heq ▸ List.mem_cons_self ..)).prefix_defined hd
  parameters := by
    refine (parameters_prefixIds hp f).trans (Option.map_congr fun ids hids => List.map_congr_left fun id hid => ?_)
    rw [(parameters_eq_ok.mp (mem_toOption.mp hids)).2] at hid
    obtain ⟨l, hl, hd⟩ := List.mem_filterMap.mp hid
    exact (h l (parameterLines_subset hl)).prefix_defined hd
  returned := by
    refine (returnValue?_prefixIds hp f).trans (Option.map_congr fun id hid => ?_)
    obtain ⟨l, hl, hid⟩ := Option.bind_eq_some_iff.mp hid
    exact (h l (List.mem_of_find?_eq_some hl)).prefix_id (List.mem_of_mem_head? hid)
  callees := by
    refine (callees_prefixIds hp f).trans (Option.map_congr fun ids hids => List.map_congr_left fun id hid => ?_)
    obtain ⟨calls, hcalls, heq⟩ := bind_eq_ok.mp (mem_toOption.mp hids)
    cases heq
    obtain ⟨call, hcall, rfl⟩ := List.mem_map.mp hid
    obtain ⟨l, hl, hread⟩ := exists_of_forall₂_right (mapM_eq_ok.mp hcalls) call hcall
    exact (h l (List.mem_filter.mp hl).1).prefix_rhsId (Call.callee_mem hread)

end Function

/-! ## The calls of the module -/

namespace Module

variable {p : Text} {m : Module} {a b : Text}

theorem functions_prefixIds (p : Text) (m : Module) :
    (m.mapLines (Line.prefixIds p)).functions = m.functions.map (Function.prefixIds p) :=
  functions_mapLines _ m

theorem readable_prefixIds (hp : Fits p) (f : Function) : (f.prefixIds p).Readable ↔ f.Readable := by
  have answers : ∀ {α β : Type} {x : Except LinkError α} {y : Except LinkError β} {g : α → β},
      y.toOption = x.toOption.map g → ((∃ b, y = .ok b) ↔ ∃ a, x = .ok a) := by
    intro α β x y g h
    cases x <;> cases y <;> simp [Except.toOption] at h ⊢
  exact and_congr (answers (Function.name_prefixIds hp f)) (answers (Function.callees_prefixIds hp f))

theorem isNamed_prefixIds (hp : Fits p) (f : Function) (name : Text) :
    (f.prefixIds p).isNamed (Text.prefixIds p name) = f.isNamed name := by
  rw [Bool.eq_iff_iff, Function.isNamed_iff, Function.isNamed_iff, ← mem_toOption, ← mem_toOption,
    Function.name_prefixIds hp, Option.mem_def, Option.map_eq_some_iff]
  exact ⟨fun ⟨_, h, e⟩ => prefixIds_injective p e ▸ h, fun h => ⟨name, h, rfl⟩⟩

theorem latest?_prefixIds (hp : Fits p) (name : Text) :
    (m.mapLines (Line.prefixIds p)).latest? (Text.prefixIds p name) = (m.latest? name).map (Function.prefixIds p) := by
  rw [latest?, latest?, functions_prefixIds, ← List.map_reverse, List.find?_map]
  refine congrArg (Option.map _) (congrArg (List.find? · _) (funext fun f => ?_))
  exact isNamed_prefixIds hp f name

theorem exists_of_latest?_prefixIds (hp : Fits p) {f' : Function}
    (h : (m.mapLines (Line.prefixIds p)).latest? a = some f') :
    ∃ name f, a = Text.prefixIds p name ∧ m.latest? name = some f ∧ f' = f.prefixIds p := by
  have named := Function.isNamed_iff.mp (List.find?_some h)
  have mem := List.mem_reverse.mp (List.mem_of_find?_eq_some h)
  rw [functions_prefixIds] at mem
  obtain ⟨f, -, rfl⟩ := List.mem_map.mp mem
  rw [← mem_toOption, Function.name_prefixIds hp] at named
  obtain ⟨name, -, rfl⟩ := Option.map_eq_some_iff.mp named
  rw [latest?_prefixIds hp] at h
  obtain ⟨f₀, hf₀, heq⟩ := Option.map_eq_some_iff.mp h
  exact ⟨name, f₀, rfl, hf₀, heq.symm⟩

theorem leads_prefixIds (hp : Fits p) : (m.mapLines (Line.prefixIds p)).Leads a b ↔
    ∃ a₀ b₀, a = Text.prefixIds p a₀ ∧ b = Text.prefixIds p b₀ ∧ m.Leads a₀ b₀ := by
  constructor
  · rintro ⟨f, hf, ⟨callees, hcallees, hb⟩, f', hf'⟩
    obtain ⟨a₀, f₀, rfl, hf₀, rfl⟩ := exists_of_latest?_prefixIds hp hf
    obtain ⟨b₀, f₀', rfl, hf₀', -⟩ := exists_of_latest?_prefixIds hp hf'
    rw [← mem_toOption, Function.callees_prefixIds hp] at hcallees
    obtain ⟨callees₀, hcallees₀, rfl⟩ := Option.map_eq_some_iff.mp hcallees
    have called : b₀ ∈ callees₀ := (List.mem_map_of_injective (prefixIds_injective p)).mp hb
    exact ⟨a₀, b₀, rfl, rfl, f₀, hf₀, ⟨callees₀, mem_toOption.mp hcallees₀, called⟩, f₀', hf₀'⟩
  · rintro ⟨a₀, b₀, rfl, rfl, f, hf, ⟨callees, hcallees, hb⟩, f', hf'⟩
    refine ⟨f.prefixIds p, by rw [latest?_prefixIds hp, hf]; rfl, ⟨callees.map (Text.prefixIds p), ?_, List.mem_map_of_mem hb⟩,
      f'.prefixIds p, by rw [latest?_prefixIds hp, hf']; rfl⟩
    rw [← mem_toOption, Function.callees_prefixIds hp, hcallees]
    rfl

/-- The prefixed names lead to each other as the names do. -/
theorem leadsAcyclic_prefixIds (hp : Fits p) : (m.mapLines (Line.prefixIds p)).LeadsAcyclic ↔ m.LeadsAcyclic := by
  constructor
  · intro h name run
    refine h (Text.prefixIds p name) (Relation.TransGen.lift (Text.prefixIds p) (fun a b hab => ?_) _ _ run)
    exact (leads_prefixIds hp).mpr ⟨a, b, rfl, rfl, hab⟩
  · intro h name run
    have back : ∀ {a b : Text}, Relation.TransGen (m.mapLines (Line.prefixIds p)).Leads a b →
        ∃ a₀ b₀, a = Text.prefixIds p a₀ ∧ b = Text.prefixIds p b₀ ∧ Relation.TransGen m.Leads a₀ b₀ := by
      intro a b run
      induction run with
      | single step =>
        obtain ⟨a₀, b₀, ha, hb, step⟩ := (leads_prefixIds hp).mp step
        exact ⟨a₀, b₀, ha, hb, .single step⟩
      | tail _ step ih =>
        obtain ⟨a₀, b₀, ha, hb, run⟩ := ih
        obtain ⟨b₁, c₀, hb', hc, step⟩ := (leads_prefixIds hp).mp step
        obtain rfl := prefixIds_injective p (hb.symm.trans hb')
        exact ⟨a₀, c₀, ha, hc, run.tail step⟩
    obtain ⟨a₀, b₀, ha, hb, run⟩ := back run
    obtain rfl := prefixIds_injective p (ha.symm.trans hb)
    exact h a₀ run

/-- The check of the call graph passes after prefixing exactly when it passed before. -/
theorem checkCallGraph_prefixIds (hp : Fits p) (m : Module) :
    (m.mapLines (Line.prefixIds p)).checkCallGraph = .ok () ↔ m.checkCallGraph = .ok () := by
  rw [checkCallGraph_iff_latest, checkCallGraph_iff_latest, leadsAcyclic_prefixIds hp, functions_prefixIds,
    List.forall_mem_map]
  exact and_congr_left fun _ => forall₂_congr fun f _ => readable_prefixIds hp f

/-! ## The identifiers of the module -/

/-- Every identifier on a line, and everything that a line defines. -/
def idents (m : Module) : List Text :=
  m.lines.flatMap fun l => l.ids ++ l.defined?.toList

theorem mem_idents {id : Text} : id ∈ m.idents ↔ ∃ l ∈ m.lines, id ∈ l.ids ∨ l.defined? = some id := by
  simp [idents]

theorem head?_of_mem_idents {id : Text} (h : id ∈ m.idents) : id.head? = some sigil := by
  obtain ⟨l, -, hid | hd⟩ := mem_idents.mp h
  · exact (isIdent_of_mem hid).1
  · exact (Line.isName_of_defined hd).sigil

theorem idents_prefixIds (hp : Fits p) (h : ∀ l ∈ m.lines, l.Orderly) :
    (m.mapLines (Line.prefixIds p)).idents = m.idents.map (withPrefix p) := by
  rw [idents, lines_mapLines, List.flatMap_map, idents, List.map_flatMap]
  refine List.flatMap_congr fun l hl => ?_
  have mirrors := Line.mirrors_prefixIds hp (h l hl)
  rw [mirrors.ids, mirrors.defined, List.map_append, Option.toList_map]

/-- Prefixing a module gives the same module under other names. Each line and each function
    answers with the prefixed identifiers; distinct identifiers stay distinct; the check of
    the call graph passes or fails as before; and no identifier is left that another module
    can have, unless that one starts with the prefix too. -/
theorem namespaced_mirrors (hp : Fits p) (h : ∀ l ∈ m.lines, l.Orderly) :
    (∀ l ∈ m.lines, Line.Mirrors (withPrefix p) l (l.prefixIds p)) ∧
    (∀ b ∈ m.blocks, Function.Mirrors (withPrefix p) ⟨b.lines⟩ ⟨(b.mapLines (Line.prefixIds p)).lines⟩) ∧
    (∀ id ∈ m.idents, ∀ id' ∈ m.idents, withPrefix p id = withPrefix p id' → id = id') ∧
    ((m.mapLines (Line.prefixIds p)).checkCallGraph = .ok () ↔ m.checkCallGraph = .ok ()) ∧
    (∀ id ∈ (m.mapLines (Line.prefixIds p)).idents, sigil :: p <+: id) ∧
    ∀ other : Module, (∀ id ∈ other.idents, ¬ sigil :: p <+: id) →
      (m.mapLines (Line.prefixIds p)).idents.Disjoint other.idents := by
  have marked : ∀ id ∈ (m.mapLines (Line.prefixIds p)).idents, sigil :: p <+: id := by
    rw [idents_prefixIds hp h]
    exact List.forall_mem_map.mpr fun id _ => withPrefix_starts p id
  refine ⟨fun l hl => Line.mirrors_prefixIds hp (h l hl), fun b hb => ?_, fun id hid id' hid' => ?_,
    checkCallGraph_prefixIds hp m, marked, fun other unmarked id hid hid' => unmarked id hid' (marked id hid)⟩
  · exact Function.mirrors_prefixIds (f := ⟨b.lines⟩) hp fun l hl => h l (List.mem_flatMap.mpr ⟨b, hb, hl⟩)
  · exact withPrefix_injective (head?_of_mem_idents hid) (head?_of_mem_idents hid')

/-- A kernel that calls a helper and is listed, in quotation marks, in the header. -/
def listedKernel : Module :=
  ⟨[⟨.header, [⟨"%list = OpString \"%k \"".toList⟩]⟩,
    ⟨.function, [⟨"%h = OpFunction %u None %fn".toList⟩, ⟨"%x = OpFunctionParameter %u".toList⟩, ⟨"%l1 = OpLabel".toList⟩,
      ⟨"OpReturnValue %x".toList⟩, ⟨"OpFunctionEnd".toList⟩]⟩,
    ⟨.function, [⟨"%k = OpFunction %u None %fn".toList⟩, ⟨"%l2 = OpLabel".toList⟩,
      ⟨"%r = OpFunctionCall %u %h %one".toList⟩, ⟨"OpReturnValue %r".toList⟩, ⟨"OpFunctionEnd".toList⟩]⟩]⟩

theorem namespaced_mirrors_listed :
    Fits "rs_linker_".toList ∧ (∀ l ∈ listedKernel.lines, l.Orderly) ∧
      (∀ l ∈ listedKernel.lines, Line.Mirrors (withPrefix "rs_linker_".toList) l (l.prefixIds "rs_linker_".toList)) ∧
      (listedKernel.mapLines (Line.prefixIds "rs_linker_".toList)).checkCallGraph = .ok () ∧
      (listedKernel.mapLines (Line.prefixIds "rs_linker_".toList)).idents.Disjoint listedKernel.idents := by
  have fits : Fits "rs_linker_".toList := by decide
  have orderly : ∀ l ∈ listedKernel.lines, l.Orderly := by decide +kernel
  obtain ⟨lines, -, -, check, -, disjoint⟩ := namespaced_mirrors fits orderly
  exact ⟨fits, orderly, lines, check.mpr (by decide +kernel), disjoint listedKernel (by decide +kernel)⟩

end Module

end SpirvLink
