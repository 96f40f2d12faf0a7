/-
  SpirvLink.Options.Basic — what can be chosen for a link.

  Result: options are valid exactly if they have what the validator asks for
  (`validate_eq_ok`, `fault?_eq_none`).
-/

import SpirvLink.Text.Basic
import SpirvLink.Text.Ident
import SpirvLink.Error

namespace SpirvLink

structure Options where
  /-- Goes behind the percent sign of every identifier of the kernel module. -/
  kernelPrefix : Text
  /-- Defines, in the wrapper's header, the string that lists the kernels. -/
  kernelListId : Text
  /-- What the wrapper's main calls in place of the kernel. -/
  placeholder : Text
  /-- The storage class that the kernel module is to lose. -/
  storageClassFrom : Text
  /-- The storage class that it gets instead. -/
  storageClassTo : Text
  /-- The linked text has banners and indented code. -/
  annotate : Bool
deriving DecidableEq

/-- What reads options from the text of a configuration. -/
class OptionsReader where
  read? : Text → Option Options

namespace Options

/-- The names that the producers of kernels and wrappers use. -/
def standard : Options :=
  { kernelPrefix := "rs_linker_".toList
    kernelListId := "%RS_KERNELS".toList
    placeholder := "%RS_SPIRV_DUMMY_".toList
    storageClassFrom := "Function".toList
    storageClassTo := "Uniform".toList
    annotate := true }

/-- The value can be an identifier. -/
def startsWithSigil (id : Text) : Bool :=
  id.head? == some Text.sigil

/-- The first fault of the options, if they have one. -/
def fault? (o : Options) : Option ConfigFault :=
  if o.kernelPrefix.isEmpty then some .emptyPrefix
  else if Text.hasBlank o.kernelPrefix then some (.blankInPrefix o.kernelPrefix)
  else if !startsWithSigil o.kernelListId then
    some (.notAnIdentifier "kernel_list_id".toList o.kernelListId)
  else if !startsWithSigil o.placeholder then
    some (.notAnIdentifier "placeholder_callee".toList o.placeholder)
  else if o.storageClassFrom.isEmpty || o.storageClassTo.isEmpty then some .emptyStorageClass
  else none

def validate (o : Options) : Except LinkError Unit :=
  match o.fault? with
  | some fault => .error (.config fault)
  | none => .ok ()

/-- What the validator asks for. -/
structure Accepted (o : Options) : Prop where
  hasPrefix : o.kernelPrefix ≠ []
  noBlank : ∀ c ∈ o.kernelPrefix, isBlank c = false
  listId : o.kernelListId.head? = some Text.sigil
  placeholder : o.placeholder.head? = some Text.sigil
  classFrom : o.storageClassFrom ≠ []
  classTo : o.storageClassTo ≠ []

theorem fault?_eq_none {o : Options} : o.fault? = none ↔ o.Accepted := by
  have passes : ∀ {c : Prop} [Decidable c] {fault : ConfigFault} {rest : Option ConfigFault},
      (if c then some fault else rest) = none ↔ ¬ c ∧ rest = none := by
    intro c _ fault rest
    split <;> simp [*]
  have blanks : ¬ Text.hasBlank o.kernelPrefix = true ↔ ∀ c ∈ o.kernelPrefix, isBlank c = false := by
    simp [Text.hasBlank]
  have starts : ∀ id : Text, ¬ (!startsWithSigil id) = true ↔ id.head? = some Text.sigil := by
    simp [startsWithSigil]
  rw [fault?, passes, passes, passes, passes, passes, blanks, starts, starts, Bool.or_eq_true, not_or,
    List.isEmpty_iff, List.isEmpty_iff, List.isEmpty_iff]
  constructor
  · rintro ⟨hp, hb, hl, hc, ⟨hf, ht⟩, -⟩
    exact ⟨hp, hb, hl, hc, hf, ht⟩
  · intro h
    exact ⟨h.hasPrefix, h.noBlank, h.listId, h.placeholder, ⟨h.classFrom, h.classTo⟩, rfl⟩

theorem validate_eq_ok {o : Options} : o.validate = .ok () ↔ o.fault? = none := by
  unfold validate
  cases o.fault? <;> simp

/-- The name that a function of the kernel module has after prefixing. Percent signs before
    the name are dropped. -/
def prefixed (o : Options) (name : Text) : Text :=
  Text.sigil :: o.kernelPrefix ++ name.dropWhile (· == Text.sigil)

end Options

end SpirvLink
