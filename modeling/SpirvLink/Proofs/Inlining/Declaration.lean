/-
  SpirvLink.Proofs.Inlining.Declaration — main keeps its declaration, on any lines.

  Nothing is asked of the module here. What every pass keeps holds of main when inlining
  succeeds, and main then has no call (`inlineMain_keeps`). One such property is that a line
  of main is the declaration of a function, if no identifier on the lines of functions
  holds an equals sign: a pass only puts identifiers from those lines in, with numbers
  behind them, and they cannot turn the declaration into another instruction
  (`Declared.pass`).
-/

import SpirvLink.Proofs.Inlining.Expansion
import SpirvLink.Proofs.Inlining.Run
import SpirvLink.Proofs.Line.EqualsFree

namespace SpirvLink

variable {p : Text} {m : Module} {main : Function} {copied copied' : List Text} {ls lines : List Line}
  {e : Expansion}

/-! ## What every pass keeps -/

section

variable [KeyOrder]

/-- The property may tell how many calls were replaced before. It holds of main as the last
    whole pass leaves it, also when a later pass fails. -/
theorem passes_keep {P : Nat → List Line → Prop} (hmain : m.main? = some main)
    (step : ∀ (i : Inliner) k ls lines, P k ls → (i.pass m ⟨ls⟩).result = .ok lines →
      P (k + ls.countP Line.isCall) lines) :
    ∀ (fuel done : Nat) (i : Inliner) (ls : List Line) (k : Nat), P k ls →
      let run := Inliner.passes fuel done i (m.setMain ls)
      ∃ last n, run.module = m.setMain last ∧ P (k + n) last ∧
        ∀ n', run.replaced = .ok n' → n' = n ∧ ∀ l ∈ last, l.isCall = false := by
  intro fuel
  induction fuel with
  | zero => exact fun done i ls k hls => ⟨ls, 0, rfl, hls, fun n' h => (by cases h)⟩
  | succ fuel ih =>
    intro done i ls k hls
    obtain ⟨none, heq⟩ | ⟨e, -, heq⟩ | ⟨-, lines, hpass, heq⟩ := passes_cases (fun _ => rfl) hmain fuel done i ls <;> rw [heq]
    · exact ⟨ls, 0, rfl, hls, fun n' h => ⟨by cases h; rfl, none⟩⟩
    · exact ⟨ls, 0, rfl, hls, fun n' h => (by cases h)⟩
    · obtain ⟨last, n, hlast, keeps, ends⟩ :=
        ih (done + 1) (i.after (i.pass m ⟨ls⟩).log) lines _ (step i k ls lines hls hpass)
      refine ⟨last, ls.countP Line.isCall + n, hlast, by rwa [← Nat.add_assoc], fun n' h => ?_⟩
      obtain ⟨later, hlater, rfl⟩ := map_eq_ok.mp h
      obtain ⟨rfl, clean⟩ := ends later hlater
      exact ⟨rfl, clean⟩

theorem inlineMain_counts {P : Nat → List Line → Prop} (hmain : m.main? = some main)
    (step : ∀ (i : Inliner) k ls lines, P k ls → (i.pass m ⟨ls⟩).result = .ok lines →
      P (k + ls.countP Line.isCall) lines) (hls : P 0 main.lines) (i : Inliner) :
    ∃ last n, (i.inlineMain m).module = m.setMain last ∧ P n last ∧
      ∀ n', (i.inlineMain m).replaced = .ok n' → n' = n ∧ ∀ l ∈ last, l.isCall = false := by
  unfold Inliner.inlineMain
  cases m.checkCallGraph with
  | error e => exact ⟨main.lines, 0, (Module.setMain_self hmain).symm, hls, fun n' h => (by cases h)⟩
  | ok _ =>
    have kept := passes_keep hmain step (Inliner.passLimit m) 0 i main.lines 0 hls
    rw [Module.setMain_self hmain] at kept
    simpa only [Nat.zero_add] using kept

/-- Inlining that succeeds leaves a main without calls, of which everything holds that held
    at the start and that every pass keeps. -/
theorem inlineMain_keeps {P : List Line → Prop} (hmain : m.main? = some main)
    (step : ∀ (i : Inliner) ls lines, P ls → (i.pass m ⟨ls⟩).result = .ok lines → P lines) (hls : P main.lines)
    {i : Inliner} {n : Nat} (h : (i.inlineMain m).replaced = .ok n) :
    ∃ last, (i.inlineMain m).module = m.setMain last ∧ (∀ l ∈ last, l.isCall = false) ∧ P last := by
  obtain ⟨last, _, hlast, keeps, ends⟩ := inlineMain_counts (P := fun _ => P) hmain (fun i _ => step i) hls i
  exact ⟨last, hlast, (ends n h).2, keeps⟩

end

/-! ## Names in a copy -/

namespace Inlining

theorem equals_not_mem_append_copySuffix {id : Text} (h : '=' ∉ id) (copy : Nat) : '=' ∉ id ++ copySuffix copy :=
  fun hm => (List.mem_append.mp hm).elim h fun hm => (mem_copySuffix hm).2.1 rfl

theorem isName_nameInCopy {copy : Nat} {owned : List Text} {id : Text} (hid : Text.IsIdent id) (h : '=' ∉ id) :
    Text.IsName (nameInCopy copy owned id) :=
  (isIdent_nameInCopy hid).isName
    (nameInCopy_induction (P := fun id => '=' ∉ id) (fun _ h => equals_not_mem_append_copySuffix h copy) h)

end Inlining

namespace Function

variable [KeyOrder] {f : Function} {copy : Nat} {id : Text}

theorem equals_not_mem_lineName (h : '=' ∉ id) : '=' ∉ f.lineName copy id :=
  lineName_induction (P := fun id => '=' ∉ id) (fun _ h => Inlining.equals_not_mem_append_copySuffix h copy) h

theorem isName_lineName (hid : Text.IsIdent id) (h : '=' ∉ id) : Text.IsName (f.lineName copy id) :=
  (isIdent_lineName hid).isName (equals_not_mem_lineName h)

end Function

/-- The lines hold plain identifiers, and one of them declares a function. -/
structure Declared (ls : List Line) : Prop where
  plain : ∀ l ∈ ls, l.EqualsFree
  declares : ∃ l ∈ ls, l.opcode? = some Opcode.function

theorem Declared.replaceId {old new : Text} (hnew : Text.IsName new) (h : Declared ls) :
    Declared (ls.map (Line.replaceId old new)) := by
  have keeps : Text.Keeps (Text.only old new) := Text.keeps_only hnew
  constructor
  · intro l hl
    obtain ⟨k, hk, rfl⟩ := List.mem_map.mp hl
    exact (h.plain k hk).renameIds keeps
  · obtain ⟨l, hl, ho⟩ := h.declares
    refine ⟨l.replaceId old new, List.mem_map_of_mem hl, ?_⟩
    exact ((Line.renamed_renameIds keeps (h.plain l hl)).opcode?_eq_some keeps (by decide)).mpr ho

theorem Declared.applyAll {rs : List Rename} (hnew : ∀ r ∈ rs, Text.IsName r.new) (h : Declared ls) :
    Declared (Rename.applyAll rs ls) := by
  induction rs with
  | nil => exact h
  | cons r rs ih =>
    exact (ih fun s hs => hnew s (List.mem_cons_of_mem _ hs)).replaceId (hnew r (List.mem_cons_self ..))

theorem Declared.trim (h : Declared ls) : Declared (ls.map Line.trim) := by
  constructor
  · intro l hl
    obtain ⟨k, hk, rfl⟩ := List.mem_map.mp hl
    exact (h.plain k hk).trim
  · obtain ⟨l, hl, ho⟩ := h.declares
    exact ⟨l.trim, List.mem_map_of_mem hl, by rw [Line.opcode?_trim, ho]⟩

/-! ## One pass -/

/-- The identifiers of the functions in the module are plain. -/
def Module.EqualsFreeFunctions (m : Module) : Prop :=
  ∀ f ∈ m.plainFunctions, ∀ l ∈ f.lines, l.EqualsFree

variable [KeyOrder]

theorem Expands.plain (plain : m.EqualsFreeFunctions) (h : Expands p m copied ls copied' e) (hls : ∀ l ∈ ls, l.EqualsFree) :
    (∀ l ∈ e.lines, l.EqualsFree) ∧ ∀ r ∈ e.renames, Text.IsName r.new := by
  refine ⟨h.forall_lines hls fun f hf copy l hl => ?_, fun r hr => ?_⟩
  · obtain ⟨k, hk, rfl⟩ := Function.mem_copyLines.mp hl
    exact Text.equalsFree_renameIds fun id hid =>
      Function.equals_not_mem_lineName (plain f hf k (Function.bodyLines_subset hk) id hid)
  · obtain ⟨k, call, f, copy, c, hr⟩ := h.mem_renames hr
    rcases Function.mem_copyRenames hr with ⟨-, -, -, harg⟩ | ⟨value, hvalue, rfl⟩
    · have hrhs := Call.mem_rhsIds c.read harg
      have hid := Line.isIdent_of_mem_rhsIds hrhs
      exact hid.isName ((hls k c.mem).rhsIds _ hrhs)
    · -- The value returned stands on a line of the function.
      obtain ⟨j, hj, hid⟩ := Function.mem_ids_of_returnValue hvalue
      exact Inlining.isName_nameInCopy (Text.isIdent_of_mem hid) (plain f c.plain j hj value hid)

theorem Declared.pass (plain : m.EqualsFreeFunctions) {i : Inliner} (h : Declared ls)
    (hpass : (i.pass m ⟨ls⟩).result = .ok lines) : Declared lines := by
  obtain ⟨copied', e, he, rfl⟩ := exists_expands_of_pass hpass
  obtain ⟨hlines, hnew⟩ := he.plain plain h.plain
  refine Declared.trim (Declared.applyAll (fun r hr => hnew r (List.mem_filter.mp hr).1) ⟨hlines, ?_⟩)
  obtain ⟨l, hl, ho⟩ := h.declares
  have hcall : l.isCall = false := by
    rw [Line.isCall, Line.hasOpcode, ho]
    decide
  exact ⟨l, he.mem_lines_of_not_call hl hcall, ho⟩

end SpirvLink
