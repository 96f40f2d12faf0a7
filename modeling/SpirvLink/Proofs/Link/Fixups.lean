/-
  SpirvLink.Proofs.Link.Fixups — what the fixups make of the kernel's names.

  A prefix and storage classes that can stand inside an identifier (`Options.Embeds`) change
  every identifier of the kernel by itself (`ids_fixLine`, `defined?_fixLine`). The prefix
  keeps identifiers apart. The storage class does not: it is moved inside names, so a name
  with the new class and one with the old can become one (`fixups_merge`,
  `fixups_merge_constants`).

  The kernel's name is read from the wrapper's header and prefixed, but the class is not
  moved in it. So it names the kernel's function exactly if it does not hold the class
  (`resolved_names_kernel`); a kernel whose name holds it is not found
  (`resolved_names_no_kernel`).

  Results: `fixups_merge`, `resolved_names_kernel`.
-/

import SpirvLink.Proofs.Link.Namespacing
import SpirvLink.Proofs.Link.Preparing

namespace SpirvLink

open Text

/-- The prefix and both storage classes can stand inside an identifier. -/
structure Options.Embeds (o : Options) : Prop where
  fits : Fits o.kernelPrefix
  old : IsClass o.storageClassFrom
  new : IsClass o.storageClassTo

instance (o : Options) : Decidable o.Embeds :=
  decidable_of_iff (Fits o.kernelPrefix ∧ IsClass o.storageClassFrom ∧ IsClass o.storageClassTo)
    ⟨fun h => ⟨h.1, h.2.1, h.2.2⟩, fun h => ⟨h.fits, h.old, h.new⟩⟩

/-- The storage class stands between underscores in the name. -/
def Storage.Named (c id : Text) : Prop :=
  Line.storageInName c <:+: id

instance (c id : Text) : Decidable (Storage.Named c id) :=
  inferInstanceAs (Decidable (_ <:+: _))

namespace Link

variable {o : Options} {kernel : Module} {f : Function} {id id' : Text}

/-- What the fixups make of an identifier. -/
def fixId (o : Options) (id : Text) : Text :=
  Storage.inName o.storageClassFrom o.storageClassTo (Text.prefixIds o.kernelPrefix id)

def fixFunction (o : Options) (f : Function) : Function :=
  ⟨f.lines.map (fixLine o)⟩

theorem ids_fixLine (h : o.Embeds) (l : Line) : (fixLine o l).ids = l.ids.map (fixId o) := by
  rw [fixLine, Line.ids_moveStorageClass h.old h.new, Line.ids_prefixIds h.fits, List.map_map]
  rfl

theorem defined?_fixLine (h : o.Embeds) (l : Line) : (fixLine o l).defined? = l.defined?.map (fixId o) := by
  rw [fixLine, Line.defined?_moveStorageClass h.old h.new, Line.defined?_prefixIds h.fits, Option.map_map]
  rfl

/-! ## Names that become one -/

theorem fixId_of_not_named (hid : ¬ Storage.Named o.storageClassFrom (Text.prefixIds o.kernelPrefix id)) :
    fixId o id = Text.prefixIds o.kernelPrefix id :=
  replaceAll_of_not_infix (Storage.storageInName_ne_nil _) hid

/-- Two identifiers become one only if one holds the new class, and one the old. -/
theorem named_of_fixId_eq (bare : '_' ∉ o.storageClassTo) (hne : id ≠ id') (he : fixId o id = fixId o id') :
    (Storage.Named o.storageClassTo (Text.prefixIds o.kernelPrefix id) ∨
        Storage.Named o.storageClassTo (Text.prefixIds o.kernelPrefix id')) ∧
      (Storage.Named o.storageClassFrom (Text.prefixIds o.kernelPrefix id) ∨
        Storage.Named o.storageClassFrom (Text.prefixIds o.kernelPrefix id')) := by
  constructor
  · by_contra hn
    rw [not_or] at hn
    exact hne (prefixIds_injective _ (replaceAll_inj bare hn.1 hn.2 he))
  · by_contra hn
    rw [not_or] at hn
    rw [fixId_of_not_named hn.1, fixId_of_not_named hn.2] at he
    exact hne (prefixIds_injective _ he)

/-- The fixups change each identifier by itself, and two of a kernel become one only if one
    of them, prefixed, holds the new storage class and one the old. So where no defined
    identifier holds the new class, or none the old, each is still defined by one line. -/
theorem fixups_merge (h : o.Embeds) (bare : '_' ∉ o.storageClassTo) (kernel : Module) :
    prepared o kernel = kernel.mapLines (fixLine o) ∧
    (∀ l ∈ kernel.lines, (fixLine o l).ids = l.ids.map (fixId o) ∧ (fixLine o l).defined? = l.defined?.map (fixId o)) ∧
    (∀ id ∈ kernel.idents, ∀ id' ∈ kernel.idents, fixId o id = fixId o id' → id = id' ∨
      (Storage.Named o.storageClassTo (Text.prefixIds o.kernelPrefix id) ∨
          Storage.Named o.storageClassTo (Text.prefixIds o.kernelPrefix id')) ∧
        (Storage.Named o.storageClassFrom (Text.prefixIds o.kernelPrefix id) ∨
          Storage.Named o.storageClassFrom (Text.prefixIds o.kernelPrefix id'))) ∧
    (kernel.DefinesOnce →
      (∀ l ∈ kernel.lines, ∀ id ∈ l.defined?, ¬ Storage.Named o.storageClassTo (Text.prefixIds o.kernelPrefix id)) ∨
        (∀ l ∈ kernel.lines, ∀ id ∈ l.defined?, ¬ Storage.Named o.storageClassFrom (Text.prefixIds o.kernelPrefix id)) →
      (prepared o kernel).DefinesOnce) := by
  refine ⟨prepared_eq_mapLines o kernel, fun l _ => ⟨ids_fixLine h l, defined?_fixLine h l⟩, fun id _ id' _ he => ?_,
    fun once apart => ?_⟩
  · by_cases hne : id = id'
    · exact Or.inl hne
    · exact Or.inr (named_of_fixId_eq bare hne he)
  · have defined : (prepared o kernel).lines.filterMap Line.defined? =
        (kernel.lines.filterMap Line.defined?).map (fixId o) := by
      rw [prepared_eq_mapLines, Module.lines_mapLines, List.filterMap_map, List.map_filterMap]
      exact List.filterMap_congr fun l _ => defined?_fixLine h l
    rw [Module.DefinesOnce, defined]
    refine List.Nodup.map_on (fun id hid id' hid' he => ?_) once
    obtain ⟨l, hl, hd⟩ := List.mem_filterMap.mp hid
    obtain ⟨l', hl', hd'⟩ := List.mem_filterMap.mp hid'
    by_contra hne
    obtain ⟨new, old⟩ := named_of_fixId_eq bare hne he
    rcases apart with apart | apart
    · exact new.elim (apart l hl id hd) (apart l' hl' id' hd')
    · exact old.elim (apart l hl id hd) (apart l' hl' id' hd')

/-- A kernel with two constants under such names. -/
def mergingKernel : Module :=
  ⟨[⟨.header, []⟩, ⟨.decorations, []⟩,
    ⟨.definitions, ["%u = OpTypeInt 32 0", "%a_Function_b = OpConstant %u 1", "%a_Uniform_b = OpConstant %u 2"].map
      fun s => ⟨s.toList⟩⟩]⟩

/-- The two constants get one name. -/
theorem fixups_merge_constants : mergingKernel.DefinesOnce ∧ ¬ (prepared .standard mergingKernel).DefinesOnce ∧
    "%a_Function_b".toList ∈ mergingKernel.idents ∧ "%a_Uniform_b".toList ∈ mergingKernel.idents ∧
    (prepared .standard mergingKernel).lines.map Line.ids = [["%rs_linker_u"], ["%rs_linker_a_Uniform_b", "%rs_linker_u"],
      ["%rs_linker_a_Uniform_b", "%rs_linker_u"]].map (List.map String.toList) := by
  decide +kernel

/-- A kernel with one of them keeps its names apart. -/
theorem fixups_merge_pointer :
    Options.standard.Embeds ∧
      (prepared .standard ⟨[⟨.definitions, [⟨"%_ptr_Function_u = OpTypePointer Function %u".toList⟩]⟩]⟩).DefinesOnce := by
  have embeds : Options.standard.Embeds := by decide
  have merge := fixups_merge embeds (by decide) ⟨[⟨.definitions, [⟨"%_ptr_Function_u = OpTypePointer Function %u".toList⟩]⟩]⟩
  exact ⟨embeds, merge.2.2.2 (by decide +kernel) (Or.inl (by decide +kernel))⟩

/-! ## The name of the kernel -/

theorem name_fixFunction (h : o.Embeds) (apart : ¬ o.storageClassFrom <+: Opcode.function) (hn : f.name = .ok id) :
    (fixFunction o f).name = .ok (fixId o id) := by
  have prefixed : (f.prefixIds o.kernelPrefix).name = .ok (Text.prefixIds o.kernelPrefix id) := by
    rw [← mem_toOption, Function.name_prefixIds h.fits, hn]
    rfl
  obtain ⟨first, rest, hlines, hd, hop⟩ := Function.name_eq_ok.mp prefixed
  refine Function.name_eq_ok.mpr ⟨first.moveStorageClass o.storageClassFrom o.storageClassTo,
    rest.map (Line.moveStorageClass o.storageClassFrom o.storageClassTo), ?_, ?_, ?_⟩
  · have moved := congrArg (List.map (Line.moveStorageClass o.storageClassFrom o.storageClassTo)) hlines
    rwa [Function.prefixIds, List.map_map] at moved
  · rw [Line.defined?_moveStorageClass h.old h.new, hd]
    rfl
  · obtain ⟨halves, hs, -⟩ := Option.map_eq_some_iff.mp hd
    exact Line.hasOpcode_moveStorageClass h.old h.new (hs ▸ rfl) apart (by decide) hop

theorem prefixed_eq (o : Options) (first : id.head? = some sigil) (one : sigil ∉ id.tail) :
    o.prefixed id = Text.prefixIds o.kernelPrefix id := by
  rw [prefixIds_eq_withPrefix first one]
  obtain ⟨t, rfl⟩ := List.head?_eq_some_iff.mp first
  rw [Options.prefixed, List.dropWhile_cons_of_pos (by simp), withPrefix, List.tail_cons]
  congr 1
  cases t with
  | nil => rfl
  | cons c t =>
    refine List.dropWhile_cons_of_neg fun hc => one ?_
    rw [List.tail_cons, eq_of_beq hc]
    exact List.mem_cons_self ..

/-- The header lists one kernel, and the kernel module has a function of this name. The link
    looks for the prefixed name; the function has that name with the storage class moved in
    it. So they are the same exactly if the prefixed name does not hold the class. -/
theorem resolved_names_kernel (h : o.Embeds) (apart : ¬ o.storageClassFrom <+: Opcode.function)
    (other : o.storageClassFrom ≠ o.storageClassTo) (hf : f ∈ kernel.functions) (hn : f.name = .ok id) (one : sigil ∉ id.tail)
    {wrapper : Module} {header : Block} (hheader : wrapper.header? = some header)
    (listed : header.kernelNames? o.kernelListId = some [id]) :
    resolveKernel o wrapper = .ok (o.prefixed id) ∧ fixFunction o f ∈ (prepared o kernel).functions ∧
      (fixFunction o f).name = .ok (Storage.inName o.storageClassFrom o.storageClassTo (o.prefixed id)) ∧
      ((fixFunction o f).name = .ok (o.prefixed id) ↔ ¬ Storage.Named o.storageClassFrom (o.prefixed id)) := by
  obtain ⟨first, rest, -, hd, -⟩ := Function.name_eq_ok.mp hn
  have same := prefixed_eq o (Line.isName_of_defined hd).sigil one
  have fixed := name_fixFunction h apart hn
  rw [fixId, ← same] at fixed
  have names : Line.storageInName o.storageClassFrom ≠ Line.storageInName o.storageClassTo := by
    simpa [Line.storageInName] using other
  refine ⟨?_, ?_, fixed, ?_⟩
  · rw [resolveKernel, hheader]
    simp only [listed]
  · rw [prepared_eq_mapLines, Module.functions_mapLines]
    exact List.mem_map_of_mem hf
  · rw [fixed, Except.ok.injEq]
    exact replaceAll_eq_self_iff (Storage.storageInName_ne_nil _) names _

/-- A kernel whose entry has this name. -/
def namedKernel (name : Text) : Module :=
  ⟨[⟨.header, []⟩, ⟨.decorations, []⟩, ⟨.definitions, []⟩,
    ⟨.function, [⟨name ++ " = OpFunction %void None %fn".toList⟩, ⟨"%l = OpLabel".toList⟩, ⟨"OpReturn".toList⟩,
      ⟨"OpFunctionEnd".toList⟩]⟩]⟩

/-- A wrapper that lists a kernel of this name. -/
def listingWrapper (name : Text) : Module :=
  ⟨[⟨.header, [⟨"%RS_KERNELS = OpString \"".toList ++ name ++ " \"".toList⟩]⟩, ⟨.decorations, []⟩, ⟨.definitions, []⟩,
    ⟨.globalVariables, []⟩,
    ⟨.main, ["%main = OpFunction %void None %fn", "%m = OpLabel", "%r = OpFunctionCall %void %RS_SPIRV_DUMMY_", "OpReturn",
      "OpFunctionEnd"].map fun s => ⟨s.toList⟩⟩]⟩

theorem resolved_names_kernel_root :
    Options.standard.Embeds ∧ resolveKernel .standard (listingWrapper "%root".toList) = .ok "%rs_linker_root".toList ∧
      ∃ f ∈ (prepared .standard (namedKernel "%root".toList)).functions, f.name = .ok "%rs_linker_root".toList := by
  have embeds : Options.standard.Embeds := by decide
  have mem : ⟨(namedKernel "%root".toList).lines⟩ ∈ (namedKernel "%root".toList).functions := List.mem_singleton.mpr rfl
  have named : (⟨(namedKernel "%root".toList).lines⟩ : Function).name = .ok "%root".toList := by decide +kernel
  have header : (listingWrapper "%root".toList).header? = some ⟨.header, [⟨"%RS_KERNELS = OpString \"%root \"".toList⟩]⟩ := rfl
  have listed : (⟨.header, [⟨"%RS_KERNELS = OpString \"%root \"".toList⟩]⟩ : Block).kernelNames? "%RS_KERNELS".toList =
      some ["%root".toList] := by decide +kernel
  obtain ⟨resolved, mem, -, name⟩ :=
    resolved_names_kernel embeds (by decide) (by decide) mem named (by decide) header listed
  exact ⟨embeds, resolved, _, mem, name.mpr (by decide +kernel)⟩

attribute [local instance] KeyOrder.listed

/-- A kernel whose name holds the class is not found. -/
theorem resolved_names_no_kernel :
    resolveKernel .standard (listingWrapper "%a_Function_b".toList) = .ok "%rs_linker_a_Function_b".toList ∧
      (prepared .standard (namedKernel "%a_Function_b".toList)).functions.map (fun f => f.name.toOption) =
        [some "%rs_linker_a_Uniform_b".toList] ∧
      (linkModules .standard (namedKernel "%a_Function_b".toList) (listingWrapper "%a_Function_b".toList)).result =
        .error (.unresolvedCallee "%rs_linker_a_Function_b".toList 0) := by
  decide +kernel

end Link

end SpirvLink
