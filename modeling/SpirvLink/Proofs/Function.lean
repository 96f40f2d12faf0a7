/-
  SpirvLink.Proofs.Function — what a function answers when it answers.

  The queries of a function can fail. `parameterIds` and `bodyLines` are the same answers
  without the failure, and each query succeeds exactly when its lines are there
  (`parameters_eq_ok`, `body_eq_ok`). What a function owns is what a copy of its body
  renames: its parameters and what its body defines.
-/

import Mathlib.Data.List.Nodup
import SpirvLink.Inlining.Copy
import SpirvLink.Proofs.Success
import SpirvLink.Proofs.Line.WellSpaced

namespace SpirvLink

namespace Function

variable {f : Function}

/-- The lines after the first label. -/
def afterLabel (f : Function) : List Line :=
  (f.lines.dropWhile fun l => !l.hasOpcode Opcode.label).tail

/-- The lines between the first label and the first return after it. -/
def bodyLines (f : Function) : List Line :=
  f.afterLabel.takeWhile fun l => !l.isReturn

/-- What the parameter lines define. -/
def parameterIds (f : Function) : List Text :=
  f.parameterLines.filterMap Line.defined?

/-- What a copy of the body renames: the parameters and what the body defines. -/
def owned (f : Function) : List Text :=
  f.parameterIds ++ f.bodyLines.filterMap Line.defined?

/-- No parameter line follows the first label. -/
def ParametersFirst (f : Function) : Prop :=
  ∀ l ∈ f.afterLabel, l.hasOpcode Opcode.functionParameter = false

instance (f : Function) : Decidable f.ParametersFirst :=
  inferInstanceAs (Decidable (∀ _ ∈ _, _))

/-! ## When the queries succeed -/

theorem name_eq_ok {id : Text} : f.name = .ok id ↔
    ∃ first rest, f.lines = first :: rest ∧ first.defined? = some id ∧
      first.hasOpcode Opcode.function = true := by
  rw [← isNamed_iff, isNamed]
  cases f.lines with
  | nil => simp
  | cons first rest => simp

/-- Each line that calls can be read as a call. -/
def CallsParse (f : Function) : Prop :=
  ∀ l ∈ f.lines, l.isCall = true → ∃ call, Call.ofLine l = .ok call

theorem readable_of_callees {callees : List Text} (h : f.callees = .ok callees) : f.CallsParse := by
  intro l hl hcall
  obtain ⟨calls, hcalls, -⟩ := bind_eq_ok.mp h
  obtain ⟨call, -, hline⟩ := exists_of_forall₂ (mapM_eq_ok.mp hcalls) l (List.mem_filter.mpr ⟨hl, hcall⟩)
  exact ⟨call, hline⟩

theorem callees_isOk : (∃ callees, f.callees = .ok callees) ↔ f.CallsParse := by
  refine ⟨fun ⟨_, h⟩ => readable_of_callees h, fun parse => ?_⟩
  obtain ⟨calls, hcalls⟩ : ∃ calls, List.Forall₂ (fun l c => Call.ofLine l = .ok c) (f.lines.filter Line.isCall) calls :=
    exists_forall₂ fun l hl => parse l (List.mem_filter.mp hl).1 (List.mem_filter.mp hl).2
  exact ⟨_, bind_eq_ok.mpr ⟨calls, mapM_eq_ok.mpr hcalls, rfl⟩⟩

theorem parameters_eq_ok {ps : List Text} : f.parameters = .ok ps ↔
    (∀ l ∈ f.parameterLines, l.defined?.isSome = true) ∧ ps = f.parameterIds := by
  unfold parameters parameterIds
  rw [mapM_eq_ok]
  generalize f.parameterLines = ls
  induction ls generalizing ps with
  | nil => simp
  | cons l ls ih =>
    constructor
    · intro h
      cases h with
      | cons hl hls =>
        obtain ⟨defined, rfl⟩ := ih.mp hls
        cases hd : l.defined? with
        | none => rw [hd] at hl; cases hl
        | some id =>
          rw [hd] at hl
          cases hl
          refine ⟨fun k hk => ?_, by simp [hd]⟩
          rcases List.mem_cons.mp hk with rfl | hk
          · rw [hd]; rfl
          · exact defined k hk
    · rintro ⟨defined, rfl⟩
      obtain ⟨id, hd⟩ := Option.isSome_iff_exists.mp (defined l (List.mem_cons_self ..))
      rw [List.filterMap_cons_some hd]
      exact .cons (by rw [hd]) (ih.mpr ⟨fun k hk => defined k (List.mem_cons_of_mem _ hk), rfl⟩)

theorem length_parameterIds (h : ∀ l ∈ f.parameterLines, l.defined?.isSome = true) :
    f.parameterIds.length = f.arity := by
  rw [parameterIds, arity]
  exact List.filterMap_length_eq_length.mpr h

theorem body_eq_ok {b : List Line} : f.body = .ok b ↔
    (∃ name, f.name = .ok name) ∧ (∃ l ∈ f.afterLabel, l.isReturn = true) ∧ b = f.bodyLines := by
  unfold body bodyLines afterLabel
  rw [bind_eq_ok, ← exists_and_right]
  refine exists_congr fun name => and_congr_right fun _ => ?_
  cases f.lines.dropWhile fun l => !l.hasOpcode Opcode.label with
  | nil => exact ⟨fun h => (by cases h), fun ⟨⟨_, hl, _⟩, _⟩ => (by cases hl)⟩
  | cons label rest =>
    show (if rest.any Line.isReturn then _ else _) = _ ↔ (∃ l ∈ rest, l.isReturn = true) ∧ b = _
    rw [← List.any_eq_true]
    by_cases hr : rest.any Line.isReturn = true
    · rw [if_pos hr]
      exact ⟨fun h => ⟨hr, (by cases h; rfl)⟩, fun ⟨_, h⟩ => (by rw [h]; rfl)⟩
    · rw [if_neg hr]
      exact ⟨fun h => (by cases h), fun ⟨h, _⟩ => absurd h hr⟩

/-! ## Where the lines stand -/

theorem afterLabel_sublist : f.afterLabel.Sublist f.lines :=
  (List.tail_sublist _).trans (List.dropWhile_sublist _)

theorem bodyLines_sublist : f.bodyLines.Sublist f.lines :=
  (List.takeWhile_sublist _).trans afterLabel_sublist

theorem bodyLines_subset : f.bodyLines ⊆ f.lines :=
  bodyLines_sublist.subset

/-- The first line declares the function and is no call. -/
theorem mem_tail_of_isCall {name : Text} (hn : f.name = .ok name) {l : Line} (hl : l ∈ f.lines)
    (hcall : l.isCall = true) : l ∈ f.lines.tail := by
  obtain ⟨first, rest, hlines, -, ho⟩ := name_eq_ok.mp hn
  rw [hlines] at hl ⊢
  rcases List.mem_cons.mp hl with rfl | hl
  · have hop : l.opcode? = some Opcode.function := by simpa [Line.hasOpcode] using ho
    rw [Line.isCall, Line.hasOpcode, hop] at hcall
    exact absurd hcall (by decide)
  · exact hl

theorem parameterLines_subset : f.parameterLines ⊆ f.lines :=
  List.filter_subset_self _

/-- Where the parameters come first, a function owns each identifier once for each line that
    defines it. -/
theorem owned_sublist (h : f.ParametersFirst) : f.owned.Sublist (f.lines.filterMap Line.defined?) := by
  have split : f.lines = (f.lines.takeWhile fun l => !l.hasOpcode Opcode.label) ++
      f.lines.dropWhile fun l => !l.hasOpcode Opcode.label := List.takeWhile_append_dropWhile.symm
  have label : ∀ l ∈ (f.lines.dropWhile fun l => !l.hasOpcode Opcode.label).head?,
      l.hasOpcode Opcode.functionParameter = false := by
    intro l hl
    have := List.head?_dropWhile_not (fun l : Line => !l.hasOpcode Opcode.label) f.lines
    rw [Option.mem_def.mp hl] at this
    have ho : l.opcode? = some Opcode.label := by simpa [Line.hasOpcode] using this
    rw [Line.hasOpcode, ho]
    decide
  have none_after : (f.lines.dropWhile fun l => !l.hasOpcode Opcode.label).filter
      (Line.hasOpcode Opcode.functionParameter) = [] := by
    refine List.filter_eq_nil_iff.mpr fun l hl => ?_
    unfold ParametersFirst afterLabel at h
    cases hd : f.lines.dropWhile fun l => !l.hasOpcode Opcode.label with
    | nil => rw [hd] at hl; cases hl
    | cons first rest =>
      rw [hd] at hl h label
      rcases List.mem_cons.mp hl with rfl | hl
      · simpa using label l rfl
      · simpa using h l hl
  have params : f.parameterLines.Sublist (f.lines.takeWhile fun l => !l.hasOpcode Opcode.label) := by
    rw [parameterLines]
    nth_rewrite 1 [split]
    rw [List.filter_append, none_after, List.append_nil]
    exact List.filter_sublist
  have body : f.bodyLines.Sublist (f.lines.dropWhile fun l => !l.hasOpcode Opcode.label) :=
    (List.takeWhile_sublist _).trans (List.tail_sublist _)
  rw [split, List.filterMap_append]
  exact (params.filterMap _).append (body.filterMap _)

theorem mem_owned_of_parameter {p : Text} (h : p ∈ f.parameterIds) : p ∈ f.owned :=
  List.mem_append_left _ h

theorem mem_owned_of_body {l : Line} {id : Text} (hl : l ∈ f.bodyLines) (hd : l.defined? = some id) :
    id ∈ f.owned :=
  List.mem_append_right _ (List.mem_filterMap.mpr ⟨l, hl, hd⟩)

end Function

end SpirvLink
