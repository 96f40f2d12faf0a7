/-
  SpirvLink.Proofs.Link.Options — what valid options are good for.

  The options name two identifiers and a prefix for those of the kernel module. A line is read
  by a scanner that ends an identifier at a blank or a quotation mark, and it defines only a
  name without blanks and equals signs. The validator asks less (`Options.Accepted`): of the
  two names their percent sign, of the prefix that no blank is in it.

  So valid options can name what is not one identifier, and then no link takes place. And a
  quotation mark in the prefix ends every identifier that it is put into: all identifiers of
  the kernel module start with the same one (`validated_tokens`, `validated_without_tokens`).
-/

import SpirvLink.Proofs.Link.KernelCode
import SpirvLink.Proofs.Text.Prefixing

namespace SpirvLink

open Text

variable {o : Options} {kernel wrapper : Module} {out : Linked} {header : Block} {p u v x : Text}

/-! ## Identifiers with a prefix -/

/-- What can follow the percent sign of an identifier that has no other percent sign. -/
def Text.FollowsSigil (x : Text) : Prop :=
  ∀ c ∈ x, endsIdent c = false ∧ c ≠ sigil

namespace Line

theorem ids_prefixIds_sigil (hx : x.FollowsSigil) (p : Text) :
    (prefixIds p ⟨sigil :: x⟩).ids = identifiers (sigil :: p ++ x) := by
  have one : sigil ∉ x := fun hm => (hx _ hm).2 rfl
  exact congrArg identifiers (prefixIds_eq_withPrefix rfl one)

/-- A prefixed identifier is one identifier exactly if nothing in the prefix ends it. -/
theorem ids_prefixIds_sigil_iff (hx : x.FollowsSigil) :
    (prefixIds p ⟨sigil :: x⟩).ids = [sigil :: p ++ x] ↔ ∀ c ∈ p, endsIdent c = false := by
  rw [ids_prefixIds_sigil hx, identifiers_eq_self_iff, List.cons_append, isIdent_sigil]
  constructor
  · exact fun h c hc => h c (List.mem_append_left _ hc)
  · exact fun h c hc => (List.mem_append.mp hc).elim (h c) fun hc => (hx c hc).1

/-- A quotation mark in the prefix ends the identifier before the name that it had comes. -/
theorem ids_prefixIds_quote (hx : x.FollowsSigil) (hu : ∀ c ∈ u, endsIdent c = false) :
    (prefixIds (u ++ '"' :: v) ⟨sigil :: x⟩).ids = (sigil :: u) :: identifiers (v ++ x) := by
  have ended := identifiers_ender (c := '"') (by decide) (sigil :: u) (v ++ x)
  rw [identifiers_of_isIdent (isIdent_sigil.mpr hu)] at ended
  rw [ids_prefixIds_sigil hx, List.cons_append, List.append_assoc, List.cons_append]
  exact ended

end Line

/-! ## Links under valid options -/

theorem Options.Accepted.endsIdent_iff (h : o.Accepted) {c : Char} (hc : c ∈ o.kernelPrefix) :
    endsIdent c = true ↔ c = '"' := by
  simp [endsIdent, h.noBlank c hc]

/-- No line defines a list of kernels under an identifier that is not a name. -/
theorem Block.kernelNames?_of_not_isName {id : Text} (h : ¬ IsName id) (b : Block) : b.kernelNames? id = none := by
  rw [kernelNames?, List.find?_eq_none.mpr]
  · rfl
  · intro l _ listed
    rw [Bool.and_eq_true] at listed
    exact h (Line.isName_of_defined (eq_of_beq listed.2))

theorem Link.resolveKernel_of_not_isName (h : ¬ IsName o.kernelListId) (hheader : wrapper.header? = some header) :
    resolveKernel o wrapper = .error .kernelNamesNotFound := by
  rw [resolveKernel, hheader]
  dsimp only
  rw [Block.kernelNames?_of_not_isName h]

theorem Link.isIdent_placeholder [KeyOrder] (h : (linkModules o kernel wrapper).result = .ok out) : IsIdent o.placeholder := by
  obtain ⟨s⟩ := linkModules_eq_ok h
  obtain ⟨l, -, hm⟩ := placeholder_of_patch (patch_of_link h s).1 s.main?
  exact isIdent_of_mem hm

/-- Of valid options, the list's name and the placeholder are one identifier each exactly if
    nothing in them ends one, and prefixing gives one identifier exactly if no quotation mark
    is in the prefix; with one, what stands before it becomes the first identifier, whatever
    the name was. If the list's name has a blank or an equals sign, every link fails for want
    of the list once the wrapper has a header, and no link succeeds if the placeholder is not
    one identifier. -/
theorem Options.validated_tokens [KeyOrder] (valid : o.validate = .ok ()) :
    (identifiers o.kernelListId = [o.kernelListId] ↔ ∀ c ∈ o.kernelListId, endsIdent c = false) ∧
    (identifiers o.placeholder = [o.placeholder] ↔ ∀ c ∈ o.placeholder, endsIdent c = false) ∧
    (∀ x : Text, x.FollowsSigil →
      ((Line.prefixIds o.kernelPrefix ⟨sigil :: x⟩).ids = [sigil :: o.kernelPrefix ++ x] ↔ '"' ∉ o.kernelPrefix)) ∧
    (∀ u v, o.kernelPrefix = u ++ '"' :: v → '"' ∉ u → ∀ x : Text, x.FollowsSigil →
      (Line.prefixIds o.kernelPrefix ⟨sigil :: x⟩).ids = (sigil :: u) :: identifiers (v ++ x)) ∧
    ∀ kernel wrapper,
      ((∃ c ∈ o.kernelListId, isBlank c = true ∨ c = '=') → wrapper.header?.isSome = true →
        linkModules o kernel wrapper = Logged.fail .kernelNamesNotFound) ∧
      ∀ out, (linkModules o kernel wrapper).result = .ok out → identifiers o.placeholder = [o.placeholder] := by
  have accepted := fault?_eq_none.mp (validate_eq_ok.mp valid)
  refine ⟨identifiers_eq_self_iff.trans (and_iff_right accepted.listId),
    identifiers_eq_self_iff.trans (and_iff_right accepted.placeholder), fun x hx => ?_, ?_, fun kernel wrapper => ⟨?_, ?_⟩⟩
  · rw [Line.ids_prefixIds_sigil_iff hx]
    constructor
    · exact fun solid hm => by simpa [endsIdent] using solid _ hm
    · intro unquoted c hc
      exact eq_false_of_ne_true fun ends => unquoted ((accepted.endsIdent_iff hc).mp ends ▸ hc)
  · intro u v hsplit hu x hx
    rw [hsplit]
    refine Line.ids_prefixIds_quote hx fun c hc => eq_false_of_ne_true fun ends => hu ?_
    have inside : c ∈ o.kernelPrefix := hsplit ▸ List.mem_append_left _ hc
    exact (accepted.endsIdent_iff inside).mp ends ▸ hc
  · rintro ⟨c, hc, unfit⟩ hheader
    obtain ⟨header, hheader⟩ := Option.isSome_iff_exists.mp hheader
    have notName : ¬ IsName o.kernelListId := fun name => by
      rcases unfit with blank | rfl
      · rw [name.noBlank c hc] at blank
        cases blank
      · exact name.noEquals hc
    rw [linkModules, valid, Link.resolveKernel_of_not_isName notName hheader]
    rfl
  · exact fun out h => identifiers_eq_self_iff.mpr (Link.isIdent_placeholder h)

/-- Options that the validator lets through, with a blank in the list's name and a quotation
    mark in the prefix. -/
def Options.gapped : Options :=
  { standard with kernelListId := "%RS KERNELS".toList, kernelPrefix := "rs\"linker_".toList }

attribute [local instance] KeyOrder.listed

/-- With them no link comes to the kernel, and `%x` and `%y` become one identifier. -/
theorem Options.validated_tokens_gapped : gapped.validate = .ok () ∧
    identifiers gapped.placeholder = [gapped.placeholder] ∧
    (Line.prefixIds gapped.kernelPrefix ⟨"%x".toList⟩).ids = ["%rs".toList] ∧
    (Line.prefixIds gapped.kernelPrefix ⟨"%y".toList⟩).ids = ["%rs".toList] ∧
    linkModules gapped Link.addingKernel (Link.mentioningWrapper ⟨"%r = OpLoad %uint %in".toList⟩) =
      Logged.fail .kernelNamesNotFound := by
  have valid : gapped.validate = .ok () := by decide
  obtain ⟨-, placeholder, -, quote, links⟩ := validated_tokens valid
  have cut := quote "rs".toList "linker_".toList (by decide) (by decide)
  have free : ∀ x : Char, endsIdent x = false ∧ x ≠ sigil → Text.FollowsSigil [x] := fun x hx c hc =>
    List.mem_singleton.mp hc ▸ hx
  refine ⟨valid, placeholder.mpr (forall_of_all (by decide)), ?_, ?_,
    (links _ _).1 ⟨' ', by decide, .inl isBlank_space⟩ (by decide)⟩
  · exact (cut ['x'] (free 'x' (by decide))).trans (by decide +kernel)
  · exact (cut ['y'] (free 'y' (by decide))).trans (by decide +kernel)

/-- The validator lets them through, though the list's name is not one identifier and the
    prefix does not go into one. -/
theorem Options.validated_without_tokens : ¬ ∀ o : Options, o.validate = .ok () →
    identifiers o.kernelListId = [o.kernelListId] ∧ identifiers o.placeholder = [o.placeholder] ∧
    ∀ x : Text, x.FollowsSigil → (Line.prefixIds o.kernelPrefix ⟨sigil :: x⟩).ids = [sigil :: o.kernelPrefix ++ x] := by
  intro claimed
  exact absurd (claimed gapped (by decide)).1 (by decide +kernel)

end SpirvLink
