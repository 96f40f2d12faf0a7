/-
  SpirvLink.Proofs.Meaning.StraightLine — functions without control flow.

  A straight-line function is its declaration and parameters, a label, a body, one return
  and the end (`StraightLine.parts`). Its queries answer with these parts, and a function
  runs its body and leaves with the value that a copy of it hands on (`leave_eq_some`).
-/

import Mathlib.Data.List.TakeWhile
import SpirvLink.Proofs.Meaning.Execution

namespace SpirvLink

/-- The opcodes of the lines around a body. -/
def Opcode.frame : List Text :=
  [Opcode.function, Opcode.functionParameter, Opcode.label, Opcode.functionEnd]

namespace Line

/-- The line declares a function or a parameter, starts a body or ends a function. -/
def isFrame (l : Line) : Bool :=
  l.opcode?.any Opcode.frame.contains

/-- Every word after the opcode is one identifier or holds none. -/
def Atomic (l : Line) : Prop :=
  ∀ t ∈ l.operands, Text.IsPlainIdent t ∨ Text.sigil ∉ t

instance (l : Line) : Decidable l.Atomic :=
  inferInstanceAs (Decidable (∀ _ ∈ _, _))

theorem hasOpcode_iff {op : Text} {l : Line} : l.hasOpcode op = true ↔ l.opcode? = some op := by
  rw [hasOpcode, beq_iff_eq]

theorem hasOpcode_of_ne {op op' : Text} {l : Line} (h : l.opcode? = some op) (hne : op ≠ op') :
    l.hasOpcode op' = false := by
  rw [hasOpcode, h]
  simpa using hne

variable {l : Line} {f : Text → Text}

theorem isReturn_renameIds (h : l.WellSpaced) (hf : ∀ id ∈ l.ids, Text.IsPlainIdent (f id)) :
    (l.renameIds f).isReturn = l.isReturn := by
  rw [isReturn, h.opcode?_renameIds hf]
  rfl

theorem isFrame_renameIds (h : l.WellSpaced) (hf : ∀ id ∈ l.ids, Text.IsPlainIdent (f id)) :
    (l.renameIds f).isFrame = l.isFrame := by
  rw [isFrame, h.opcode?_renameIds hf]
  rfl

theorem renameIds_of_plain {t : Text} (h : Text.IsPlainIdent t) : Text.renameIds f t = f t :=
  Text.renameIds_of_isIdent f h.1

/-- A plain identifier among the operands is one that the line uses. -/
theorem mem_operandIds_of_plain (h : l.WellSpaced) {t : Text} (ht : t ∈ l.operands) (hp : Text.IsPlainIdent t) :
    t ∈ l.operandIds := by
  obtain ⟨d, op, ts, h⟩ := h
  rw [h.operands_eq] at ht
  rw [h.operandIds_eq]
  refine List.mem_flatMap.mpr ⟨t, ht, ?_⟩
  rw [Text.identifiers_of_isIdent hp.1]
  exact List.mem_singleton.mpr rfl

theorem Atomic.renameIds (ha : l.Atomic) (h : l.WellSpaced) (hf : ∀ id ∈ l.ids, Text.IsPlainIdent (f id)) :
    (l.renameIds f).Atomic := by
  intro t ht
  rw [h.operands_renameIds hf] at ht
  obtain ⟨u, hu, rfl⟩ := List.mem_map.mp ht
  rcases ha u hu with hp | hs
  · rw [renameIds_of_plain hp]
    refine Or.inl (hf u ?_)
    rw [h.ids_eq]
    exact List.mem_append_right _ (mem_operandIds_of_plain h hu hp)
  · exact Or.inr (by rwa [Text.renameIds_of_no_sigil f hs])

end Line

/-! ## Straight-line functions -/

namespace Function

/-- The lines before the first label. -/
def opening (f : Function) : List Line :=
  f.lines.takeWhile fun l => !l.hasOpcode Opcode.label

/-- The first return of the body, and all that follows it. -/
def closing (f : Function) : List Line :=
  f.afterLabel.dropWhile fun l => !l.isReturn

/-- A return and the end of the function. A value that is returned has an identifier. -/
def IsClosing : List Line → Prop
  | [exit, last] => exit.defined? = none ∧ (exit.hasOpcode Opcode.returnValue = true → exit.ids ≠ []) ∧
      last.hasOpcode Opcode.functionEnd = true
  | _ => False

instance : DecidablePred IsClosing := fun ls => by
  unfold IsClosing
  split <;> infer_instance

/-- A declaration, parameters, a label, lines that are no frame, one return and the end. -/
structure StraightLine (f : Function) : Prop where
  declared : ∃ first ∈ f.opening.head?, first.hasOpcode Opcode.function = true ∧ first.defined?.isSome = true
  parameters : ∀ l ∈ f.opening.tail, l.hasOpcode Opcode.functionParameter = true ∧ l.defined?.isSome = true
  body : ∀ l ∈ f.bodyLines, l.isFrame = false
  closing : IsClosing f.closing

instance (f : Function) : Decidable f.StraightLine :=
  decidable_of_iff (_ ∧ _ ∧ _ ∧ _)
    ⟨fun h => ⟨h.1, h.2.1, h.2.2.1, h.2.2.2⟩, fun h => ⟨h.declared, h.parameters, h.body, h.closing⟩⟩

end Function

/-! ## Parts -/

/-- The lines of a straight-line function by their role. -/
structure Parts where
  first : Line
  parameters : List Line
  label : Line
  body : List Line
  exit : Line
  last : Line

namespace Parts

def function (q : Parts) : Function :=
  ⟨q.first :: q.parameters ++ q.label :: (q.body ++ [q.exit, q.last])⟩

/-- Each line has the opcode that its role asks for. -/
structure WellFormed (q : Parts) : Prop where
  first : q.first.opcode? = some Opcode.function
  parameters : ∀ l ∈ q.parameters, l.opcode? = some Opcode.functionParameter
  label : q.label.opcode? = some Opcode.label
  body : ∀ l ∈ q.body, l.isFrame = false ∧ l.isReturn = false
  exit : q.exit.isReturn = true
  silent : q.exit.defined? = none
  value : q.exit.hasOpcode Opcode.returnValue = true → q.exit.ids ≠ []
  last : q.last.opcode? = some Opcode.functionEnd

end Parts

theorem Function.StraightLine.parts {f : Function} (h : f.StraightLine) :
    ∃ q : Parts, q.WellFormed ∧ q.function = f ∧ q.first.defined?.isSome = true ∧
      ∀ l ∈ q.parameters, l.defined?.isSome = true := by
  obtain ⟨⟨first, hfirst, hop, hdef⟩, hparams, hbody, hclosing⟩ := h
  obtain ⟨parameters, hopening⟩ := List.head?_eq_some_iff.mp hfirst
  rw [hopening, List.tail_cons] at hparams
  have after : f.afterLabel = f.bodyLines ++ f.closing := List.takeWhile_append_dropWhile.symm
  have lines : f.lines = f.opening ++ f.lines.dropWhile fun l => !l.hasOpcode Opcode.label :=
    List.takeWhile_append_dropWhile.symm
  unfold Function.IsClosing at hclosing
  split at hclosing
  · next exit last hc =>
    obtain ⟨silent, value, hlast⟩ := hclosing
    have hexit : exit.isReturn = true := by
      have := List.head?_dropWhile_not (fun l : Line => !l.isReturn) f.afterLabel
      rw [show f.afterLabel.dropWhile (fun l => !l.isReturn) = [exit, last] from hc] at this
      simpa using this
    have rest : ∃ label, f.lines.dropWhile (fun l => !l.hasOpcode Opcode.label) = label :: (f.bodyLines ++ [exit, last]) ∧
        label.hasOpcode Opcode.label = true := by
      have head := List.head?_dropWhile_not (fun l : Line => !l.hasOpcode Opcode.label) f.lines
      rw [hc] at after
      unfold Function.afterLabel at after
      cases hd : f.lines.dropWhile fun l => !l.hasOpcode Opcode.label with
      | nil =>
        rw [hd] at after
        simp at after
      | cons label tail =>
        rw [hd] at after head
        rw [List.tail_cons] at after
        exact ⟨label, by rw [after], by simpa using head⟩
    obtain ⟨label, hrest, hlabel⟩ := rest
    refine ⟨⟨first, parameters, label, f.bodyLines, exit, last⟩, ⟨Line.hasOpcode_iff.mp hop,
      fun l hl => Line.hasOpcode_iff.mp (hparams l hl).1, Line.hasOpcode_iff.mp hlabel, fun l hl => ⟨hbody l hl, ?_⟩,
      hexit, silent, value, Line.hasOpcode_iff.mp hlast⟩, ?_, hdef, fun l hl => (hparams l hl).2⟩
    · simpa using List.mem_takeWhile_imp hl
    · rw [hrest, hopening] at lines
      unfold Parts.function
      rw [← lines]
  · exact hclosing.elim

/-! ## Queries of a straight-line function -/

namespace Parts.WellFormed

variable {q : Parts}

theorem opening_opcode (h : q.WellFormed) {op : Text} (hf : Opcode.function ≠ op) (hp : Opcode.functionParameter ≠ op) :
    ∀ l ∈ q.first :: q.parameters, l.hasOpcode op = false := by
  intro l hl
  rcases List.mem_cons.mp hl with rfl | hl
  · exact Line.hasOpcode_of_ne h.first hf
  · exact Line.hasOpcode_of_ne (h.parameters l hl) hp

theorem afterLabel_eq (h : q.WellFormed) : q.function.afterLabel = q.body ++ [q.exit, q.last] := by
  have opening : ∀ l ∈ q.first :: q.parameters, (!l.hasOpcode Opcode.label) = true :=
    fun l hl => by rw [h.opening_opcode (by decide) (by decide) l hl]; rfl
  have label : q.label.hasOpcode Opcode.label = true := Line.hasOpcode_iff.mpr h.label
  rw [Function.afterLabel, function, List.dropWhile_append_of_pos opening, List.dropWhile_cons_of_neg (by simp [label]),
    List.tail_cons]

theorem bodyLines_eq (h : q.WellFormed) : q.function.bodyLines = q.body := by
  have body : ∀ l ∈ q.body, (!l.isReturn) = true := fun l hl => by rw [(h.body l hl).2]; rfl
  rw [Function.bodyLines, h.afterLabel_eq, List.takeWhile_append_of_pos body, List.takeWhile_cons_of_neg (by simp [h.exit]),
    List.append_nil]

theorem exit?_eq (h : q.WellFormed) : Semantics.exit? q.function = some q.exit := by
  have body : q.body.find? Line.isReturn = none :=
    List.find?_eq_none.mpr fun l hl => by simp [(h.body l hl).2]
  rw [Semantics.exit?, h.afterLabel_eq, List.find?_append, body, List.find?_cons_of_pos h.exit]
  rfl

/-- No line but those of the body is a call. -/
theorem isCall_eq_false (h : q.WellFormed) :
    (∀ l ∈ q.first :: q.parameters, l.isCall = false) ∧ q.label.isCall = false ∧ q.exit.isCall = false ∧
      q.last.isCall = false := by
  refine ⟨h.opening_opcode (by decide) (by decide), Line.hasOpcode_of_ne h.label (by decide), ?_,
    Line.hasOpcode_of_ne h.last (by decide)⟩
  by_contra hcall
  have := h.exit
  rw [Line.isReturn, Line.hasOpcode_iff.mp (Bool.not_eq_false _ ▸ hcall)] at this
  exact absurd this (by decide)

theorem parametersFirst (h : q.WellFormed) : q.function.ParametersFirst := by
  intro l hl
  rw [h.afterLabel_eq] at hl
  by_contra hne
  have ho := Line.hasOpcode_iff.mp (Bool.not_eq_false _ ▸ hne)
  rcases List.mem_append.mp hl with hl | hl
  · have := (h.body l hl).1
    rw [Line.isFrame, ho] at this
    exact absurd this (by decide)
  · rcases List.mem_cons.mp hl with rfl | hl
    · have := h.exit
      rw [Line.isReturn, ho] at this
      exact absurd this (by decide)
    · rw [List.mem_singleton.mp hl, h.last] at ho
      exact absurd ho (by decide)

theorem parameterIds_eq (h : q.WellFormed) : q.function.parameterIds = q.parameters.filterMap Line.defined? := by
  have params : q.parameters.filter (Line.hasOpcode Opcode.functionParameter) = q.parameters :=
    List.filter_eq_self.mpr fun l hl => Line.hasOpcode_iff.mpr (h.parameters l hl)
  have after : (q.body ++ [q.exit, q.last]).filter (Line.hasOpcode Opcode.functionParameter) = [] := by
    rw [← h.afterLabel_eq]
    exact List.filter_eq_nil_iff.mpr fun l hl => by simp [h.parametersFirst l hl]
  have first : q.first.hasOpcode Opcode.functionParameter = false := Line.hasOpcode_of_ne h.first (by decide)
  have label : q.label.hasOpcode Opcode.functionParameter = false := Line.hasOpcode_of_ne h.label (by decide)
  rw [Function.parameterIds, Function.parameterLines, function, List.filter_append, List.filter_cons_of_neg (by simp [first]),
    params, List.filter_cons_of_neg (by simp [label]), after, List.append_nil]

/-- The value that a copy hands on is the one of the only return. -/
theorem returnValue?_eq (h : q.WellFormed) : q.function.returnValue? =
    if q.exit.hasOpcode Opcode.returnValue then q.exit.ids.head? else none := by
  have opening : (q.first :: q.parameters).find? (Line.hasOpcode Opcode.returnValue) = none :=
    List.find?_eq_none.mpr fun l hl => by rw [h.opening_opcode (by decide) (by decide) l hl]; exact Bool.false_ne_true
  have body : q.body.find? (Line.hasOpcode Opcode.returnValue) = none := by
    refine List.find?_eq_none.mpr fun l hl hv => ?_
    have := (h.body l hl).2
    rw [Line.isReturn, Line.hasOpcode_iff.mp hv] at this
    exact absurd this (by decide)
  have label : q.label.hasOpcode Opcode.returnValue = false := Line.hasOpcode_of_ne h.label (by decide)
  have last : q.last.hasOpcode Opcode.returnValue = false := Line.hasOpcode_of_ne h.last (by decide)
  rw [Function.returnValue?, function, List.find?_append, opening, Option.none_or,
    List.find?_cons_of_neg (by simp [label]), List.find?_append, body, Option.none_or]
  by_cases hv : q.exit.hasOpcode Opcode.returnValue = true
  · rw [List.find?_cons_of_pos hv, if_pos hv]
    rfl
  · rw [List.find?_cons_of_neg hv, if_neg hv, List.find?_cons_of_neg (by simp [last])]
    rfl

theorem operandIds_exit (h : q.WellFormed) : q.exit.operandIds = q.exit.ids := by
  have rhs : q.exit.rhs? = none := by
    have := h.silent
    rw [Line.defined?, Option.map_eq_none_iff] at this
    rw [Line.rhs?, this]
    rfl
  rw [Line.operandIds, rhs]
  rfl

/-- A function leaves with the value that a copy of it hands on, or with none. -/
theorem leave_eq_some {V : Type} (h : q.WellFormed) {s : Semantics.State V} {out : Semantics.Outcome V} :
    Semantics.leave q.function s = some out ↔ out = ⟨s.trace, q.function.returnValue?.bind s.env⟩ ∧
      ∀ id ∈ q.function.returnValue?, (s.env id).isSome = true := by
  rw [Semantics.leave, h.exit?_eq, h.returnValue?_eq]
  show (if q.exit.hasOpcode Opcode.returnValue then _ else _) = _ ↔ _
  by_cases hv : q.exit.hasOpcode Opcode.returnValue = true
  · rw [if_pos hv, if_pos hv, h.operandIds_exit]
    obtain ⟨id, ids, hids⟩ := List.exists_cons_of_ne_nil (h.value hv)
    rw [hids]
    show (s.env id).bind (fun v => some (Semantics.Outcome.mk s.trace (some v))) = some out ↔
      out = ⟨s.trace, s.env id⟩ ∧ ∀ i ∈ some id, (s.env i).isSome = true
    rw [Option.bind_eq_some_iff]
    constructor
    · rintro ⟨v, hv, hout⟩
      cases hout
      exact ⟨by rw [hv], fun i hi => by rw [← Option.some.inj hi, hv]; rfl⟩
    · rintro ⟨rfl, hsome⟩
      obtain ⟨v, hv⟩ := Option.isSome_iff_exists.mp (hsome id rfl)
      exact ⟨v, hv, by rw [hv]⟩
  · rw [if_neg hv, if_neg hv]
    exact ⟨fun h => ⟨(Option.some.inj h).symm, fun i hi => (by cases hi)⟩, fun h => congrArg some h.1.symm⟩

end Parts.WellFormed

end SpirvLink
