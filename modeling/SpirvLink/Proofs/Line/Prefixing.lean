/-
  SpirvLink.Proofs.Line.Prefixing — what a line and a function say after prefixing.

  Prefixing a line prefixes every answer that the line gives: what it defines, its opcode
  and operands, and its identifiers, all of them or those on the right. So a function has
  the prefixed name, parameters, returned value and callees, and each of these questions
  fails exactly where it failed before. Opcodes that a link looks for hold no percent sign,
  so they are found on the same lines (`hasOpcode_prefixIds`).
-/

import SpirvLink.Proofs.Function
import SpirvLink.Proofs.Line.Reading
import SpirvLink.Proofs.Text.Prefixing

namespace SpirvLink

open Text

namespace Line

variable {p op : Text}

theorem canDefine_prefixIds (hp : Fits p) (s : Text) : canDefine (Text.prefixIds p s) = canDefine s := by
  have blanks : hasBlank (Text.prefixIds p s) = hasBlank s := by
    rw [Bool.eq_iff_iff, hasBlank, hasBlank, List.any_eq_true, List.any_eq_true]
    constructor
    · rintro ⟨c, hc, hb⟩
      by_contra hs
      push Not at hs
      have := not_blank_prefixIds hp (fun d hd => by simpa using hs d hd) c hc
      rw [hb] at this
      cases this
    · rintro ⟨c, hc, hb⟩
      refine ⟨c, List.mem_flatMap.mpr ⟨c, hc, ?_⟩, hb⟩
      rw [if_neg (ne_sigil_of_endsIdent (endsIdent_of_isBlank hb))]
      exact List.mem_singleton.mpr rfl
  rw [canDefine, canDefine, head?_prefixIds, blanks]

theorem halves?_prefixIds (hp : Fits p) (l : Line) : (l.prefixIds p).halves? =
    l.halves?.map fun (before, after) => (Text.prefixIds p before, Text.prefixIds p after) := by
  rw [halves?, halves?, Line.prefixIds, cutAt_prefixIds hp.noEquals]
  cases cutAt '=' l.text with
  | none => rfl
  | some h =>
    rw [Option.map_some, Option.filter_some, Option.filter_some]
    simp only [trim_prefixIds hp, canDefine_prefixIds hp]
    split <;> rfl

theorem defined?_prefixIds (hp : Fits p) (l : Line) : (l.prefixIds p).defined? = l.defined?.map (Text.prefixIds p) := by
  rw [defined?, defined?, halves?_prefixIds hp, Option.map_map, Option.map_map]
  exact congrArg (Option.map · _) (funext fun h => trim_prefixIds hp h.1)

theorem rhs?_prefixIds (hp : Fits p) (l : Line) : (l.prefixIds p).rhs? = l.rhs?.map (Text.prefixIds p) := by
  rw [rhs?, rhs?, halves?_prefixIds hp, Option.map_map, Option.map_map]
  exact congrArg (Option.map · _) (funext fun h => trim_prefixIds hp h.2)

/-! ## The instruction -/

theorem hasCode_prefixIds (hp : Fits p) (l : Line) : (l.prefixIds p).hasCode = l.hasCode := by
  rw [Bool.eq_iff_iff, hasCode_iff, hasCode_iff, Line.prefixIds, words_prefixIds hp]
  cases words l.text with
  | nil => simp
  | cons u vs => simp [head?_prefixIds]

theorem instruction_prefixIds (hp : Fits p) (l : Line) :
    (l.prefixIds p).instruction = Text.prefixIds p l.instruction := by
  rw [instruction, instruction, rhs?_prefixIds hp, Line.prefixIds, trim_prefixIds hp]
  cases l.rhs? <;> rfl

theorem opcode?_prefixIds (hp : Fits p) (l : Line) : (l.prefixIds p).opcode? = l.opcode?.map (Text.prefixIds p) := by
  rw [opcode?, opcode?, hasCode_prefixIds hp, instruction_prefixIds hp, words_prefixIds hp, List.head?_map]
  split <;> rfl

/-- An opcode without a percent sign is found on the same lines. -/
theorem opcode?_prefixIds_eq_some (hp : Fits p) (hop : sigil ∉ op) (l : Line) :
    (l.prefixIds p).opcode? = some op ↔ l.opcode? = some op := by
  simp [opcode?_prefixIds hp, prefixIds_eq_iff hop]

theorem hasOpcode_prefixIds (hp : Fits p) (hop : sigil ∉ op) (l : Line) :
    (l.prefixIds p).hasOpcode op = l.hasOpcode op := by
  rw [Bool.eq_iff_iff, hasOpcode, hasOpcode, beq_iff_eq, beq_iff_eq, opcode?_prefixIds_eq_some hp hop]

/-! ## The identifiers -/

theorem ids_prefixIds (hp : Fits p) (l : Line) : (l.prefixIds p).ids = l.ids.map (Text.prefixIds p) :=
  identifiers_prefixIds hp l.text

theorem rhsIds_prefixIds (hp : Fits p) (l : Line) : (l.prefixIds p).rhsIds = l.rhsIds.map (Text.prefixIds p) := by
  rw [rhsIds, rhsIds, rhs?_prefixIds hp]
  cases l.rhs? with
  | none => rfl
  | some rhs => exact identifiers_prefixIds hp rhs

end Line

/-! ## Functions -/

/-- The call of the same shape between renamed identifiers. -/
def Call.rename (f : Text → Text) (call : Call) : Call :=
  ⟨f call.result, f call.returnType, f call.callee, call.arguments.map f⟩

theorem Call.ofLine_prefixIds {p : Text} (hp : Fits p) (l : Line) :
    (Call.ofLine (l.prefixIds p)).toOption = (Call.ofLine l).toOption.map (Call.rename (Text.prefixIds p)) := by
  rw [Call.ofLine, Call.ofLine, Line.defined?_prefixIds hp, Line.rhsIds_prefixIds hp]
  cases l.defined? with
  | none => rfl
  | some result =>
    cases l.rhsIds with
    | nil => rfl
    | cons type ids =>
      cases ids with
      | nil => rfl
      | cons callee arguments => rfl

namespace Function

/-- The function with a prefix behind every percent sign. -/
def prefixIds (p : Text) (f : Function) : Function :=
  ⟨f.lines.map (Line.prefixIds p)⟩

variable {p : Text}

theorem filter_prefixIds (hp : Fits p) {op : Text} (hop : sigil ∉ op) (f : Function) :
    (f.prefixIds p).lines.filter (Line.hasOpcode op) = (f.lines.filter (Line.hasOpcode op)).map (Line.prefixIds p) := by
  rw [prefixIds, List.filter_map]
  exact congrArg _ (List.filter_congr fun l _ => Line.hasOpcode_prefixIds hp hop l)

theorem name_prefixIds (hp : Fits p) (f : Function) :
    (f.prefixIds p).name.toOption = f.name.toOption.map (Text.prefixIds p) := by
  obtain ⟨lines⟩ := f
  cases lines with
  | nil => rfl
  | cons first rest =>
    have opcode : (first.prefixIds p).hasOpcode Opcode.function = first.hasOpcode Opcode.function :=
      Line.hasOpcode_prefixIds hp (by decide) first
    have defined := Line.defined?_prefixIds hp first
    cases ho : first.hasOpcode Opcode.function <;> cases hd : first.defined? <;>
      simp [name, declaration, prefixIds, opcode, defined, ho, hd, bind, Except.bind, pure, Except.pure, Except.toOption]

theorem parameters_prefixIds (hp : Fits p) (f : Function) :
    (f.prefixIds p).parameters.toOption = f.parameters.toOption.map (List.map (Text.prefixIds p)) := by
  rw [parameters, parameterLines, filter_prefixIds hp (by decide)]
  refine toOption_mapM_map (fun l => ?_) _
  rw [Line.defined?_prefixIds hp]
  cases l.defined? <;> rfl

theorem returnValue?_prefixIds (hp : Fits p) (f : Function) :
    (f.prefixIds p).returnValue? = f.returnValue?.map (Text.prefixIds p) := by
  rw [returnValue?, returnValue?, ← List.head?_filter, ← List.head?_filter, filter_prefixIds hp (by decide), List.head?_map]
  cases (f.lines.filter (Line.hasOpcode Opcode.returnValue)).head? with
  | none => rfl
  | some l =>
    show (l.prefixIds p).ids.head? = l.ids.head?.map _
    rw [Line.ids_prefixIds hp, List.head?_map]

theorem callees_prefixIds (hp : Fits p) (f : Function) :
    (f.prefixIds p).callees.toOption = f.callees.toOption.map (List.map (Text.prefixIds p)) := by
  have calls : (f.prefixIds p).calls.toOption = f.calls.toOption.map (List.map (Call.rename (Text.prefixIds p))) := by
    rw [Function.calls]
    refine (congrArg (fun ls => (List.mapM Call.ofLine ls).toOption) (filter_prefixIds hp (by decide) f)).trans ?_
    exact toOption_mapM_map (Call.ofLine_prefixIds hp) _
  rw [callees, callees, toOption_bind, toOption_bind, calls]
  cases f.calls.toOption with
  | none => rfl
  | some cs =>
    refine congrArg some ?_
    rw [List.map_map, List.map_map]
    rfl

end Function

end SpirvLink
