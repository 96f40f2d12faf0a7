/-
  SpirvLink.Proofs.Inlining.MainName — main keeps its name and its end.

  A rename of a pass goes over all lines of main, its declaration among them. What it takes
  away is the result of a call or a parameter, and what it brings in is an argument or a
  value returned. So the name of main stays where no call, no value returned and no
  parameter has it (`Function.SparesMain`, `Expands.renames_spare`). No body has an
  `OpFunctionEnd`, since a return ends it before (`Function.bodyLines_open`). What a pass
  makes of main is then again a run of lines that starts with the declaration of main
  (`MainRun.pass`).
-/

import SpirvLink.Proofs.Inlining.Declaration

namespace SpirvLink

open Text SpirvLink.Module Line

/-! ## Renamings that leave the name of main to main -/

structure SparesMain (f : Text → Text) : Prop where
  keeps : Keeps f
  ident : ∀ id, IsIdent id → IsIdent (f id)
  main : ∀ id, f id = mainName → id = mainName

theorem isIdent_mainName : IsIdent mainName := by decide

theorem SparesMain.renameIds_eq {f : Text → Text} (hf : SparesMain f) {s : Text} (hs : s.head? = some sigil)
    (h : renameIds f s = mainName) : s = mainName := by
  have ident := isIdent_of_renameIds hs (h ▸ isIdent_mainName)
  exact hf.main s (renameIds_of_isIdent f ident ▸ h)

/-- No identifier on the line holds an equals sign, the line can be printed, and main is no
    argument, no result and not the value returned. -/
structure Line.Harmless (l : Line) : Prop where
  equalsFree : l.EqualsFree
  oneLine : '\n' ∉ l.text
  notPassed : mainName ∉ l.arguments
  notResult : l.result? ≠ some mainName
  notReturned : l.hasOpcode Opcode.returnValue = true → l.ids.head? ≠ some mainName

namespace Line

theorem ids_trim (l : Line) : l.trim.ids = l.ids :=
  identifiers_trim l.text

theorem rhsIds_trim (l : Line) : l.trim.rhsIds = l.rhsIds := by
  rw [rhsIds, rhs?, rhsIds, rhs?]
  cases hs : l.halves? with
  | none => rw [halves?_trim_of_none hs]
  | some h =>
    obtain ⟨before', hs', -⟩ := halves?_trim_of_some hs
    simp only [hs', Option.map_some, Option.getD_some, identifiers_trim]
    rw [identifiers_eq_flatMap_words, words_trimEnd, ← identifiers_eq_flatMap_words]

theorem arguments_trim (l : Line) : l.trim.arguments = l.arguments := by
  rw [arguments, arguments, (sameRole_trim l).isCall, rhsIds_trim]

theorem result?_trim (l : Line) : l.trim.result? = l.result? := by
  rw [result?, result?, (sameRole_trim l).isCall, defined?_trim]

end Line

namespace Line.Harmless

variable {l : Line} {f : Text → Text}

theorem trim (h : l.Harmless) : l.trim.Harmless := by
  refine ⟨h.equalsFree.trim, fun hm => h.oneLine (Text.trim_subset _ hm), ?_, ?_, ?_⟩
  · rw [arguments_trim]
    exact h.notPassed
  · rw [result?_trim]
    exact h.notResult
  · rw [hasOpcode_trim, ids_trim]
    exact h.notReturned

/-- A line without the name of main is harmless. -/
theorem of_absent (equalsFree : l.EqualsFree) (oneLine : '\n' ∉ l.text) (absent : mainName ∉ l.ids)
    (undefined : l.defined? ≠ some mainName) : l.Harmless := by
  refine ⟨equalsFree, oneLine, fun hm => ?_, fun he => undefined (result?_eq_some he).2, fun _ he => ?_⟩
  · unfold arguments at hm
    split at hm
    · exact absent (equalsFree.rhsIds_subset (List.mem_of_mem_drop hm))
    · cases hm
  · exact absent (List.mem_of_mem_head? he)

theorem sameRole (h : l.Harmless) (hf : SparesMain f) : SameRole l (l.renameIds f) :=
  (renamed_renameIds hf.keeps h.equalsFree).sameRole hf.keeps

theorem renameIds (h : l.Harmless) (hf : SparesMain f) : (l.renameIds f).Harmless := by
  have role := h.sameRole hf
  have ident : ∀ id ∈ l.ids, IsIdent (f id) := fun id hid => hf.ident id (isIdent_of_mem hid)
  refine ⟨h.equalsFree.renameIds hf.keeps, newline_not_mem_renameIds hf.keeps h.oneLine, fun hm => ?_, fun he => ?_,
    fun hret he => ?_⟩
  · unfold arguments at hm
    rw [role.isCall] at hm
    split at hm
    · next hcall =>
      rw [h.equalsFree.rhsIds_renameIds hf.keeps ident, ← List.map_drop] at hm
      obtain ⟨id, hid, he⟩ := List.mem_map.mp hm
      refine h.notPassed ?_
      rw [arguments, if_pos hcall]
      exact hf.main id he ▸ hid
    · cases hm
  · obtain ⟨hcall, hd⟩ := result?_eq_some he
    rw [role.isCall] at hcall
    rw [h.equalsFree.defined?_renameIds hf.keeps] at hd
    obtain ⟨id, hid, heq⟩ := Option.map_eq_some_iff.mp hd
    refine h.notResult ?_
    rw [result?, if_pos hcall, hid, hf.renameIds_eq (isName_of_defined hid).sigil heq]
  · rw [role.hasOpcode (by decide)] at hret
    rw [Line.ids_renameIds ident, List.head?_map] at he
    obtain ⟨id, hid, heq⟩ := Option.map_eq_some_iff.mp he
    exact h.notReturned hret (hf.main id heq ▸ hid)

end Line.Harmless

theorem Inlining.append_copySuffix_ne_mainName (id : Text) (copy : Nat) : id ++ copySuffix copy ≠ mainName := by
  intro he
  have suffixed := isCopyName_append_copySuffix id copy
  rw [he] at suffixed
  exact absurd suffixed (by decide)

theorem Function.nameIn_ne_mainName (f : Function) (copy : Nat) {id : Text} (h : id ≠ mainName) : f.nameIn copy id ≠ mainName :=
  Inlining.nameInCopy_induction (P := (· ≠ mainName)) (fun id _ => Inlining.append_copySuffix_ne_mainName id copy) h

theorem Function.lineName_ne_mainName [KeyOrder] (f : Function) (copy : Nat) {id : Text} (h : id ≠ mainName) :
    f.lineName copy id ≠ mainName :=
  lineName_induction (P := (· ≠ mainName)) (fun id _ => Inlining.append_copySuffix_ne_mainName id copy) h

theorem Function.spares_lineName [KeyOrder] (f : Function) (copy : Nat) : SparesMain (guarded (f.lineName copy)) := by
  refine ⟨keeps_guarded fun id hid he => isName_lineName hid he, fun id hid => ?_, fun id he => ?_⟩ <;> unfold guarded at *
  · split
    · exact hid
    · exact isIdent_lineName hid
  · split at he
    · exact he
    · exact not_imp_not.mp (f.lineName_ne_mainName copy) he

/-- The rename brings in an identifier, and main's name is neither its old nor its new name. -/
structure Rename.SparesMain (r : Rename) : Prop where
  name : IsName r.new
  ident : IsIdent r.new
  new : r.new ≠ mainName
  old : r.old ≠ mainName

theorem Rename.spares_composed {rs : List Rename} (h : ∀ r ∈ rs, r.SparesMain) :
    SpirvLink.SparesMain (composed rs) := by
  refine ⟨fun id _ => ?_, fun id hid => ?_, fun id he => ?_⟩
  all_goals rcases composed_eq_or_mem rs id with hc | ⟨r, hr, hc⟩
  · exact Or.inl hc
  · exact Or.inr (hc ▸ (h r hr).name)
  · rwa [hc]
  · exact hc ▸ (h r hr).ident
  · rwa [hc] at he
  · exact absurd (hc.symm.trans he) (h r hr).new

/-! ## Bodies -/

namespace Function

/-- A function whose lines and parameters leave the name of main alone. -/
structure SparesMain (f : Function) : Prop where
  harmless : ∀ l ∈ f.lines, l.Harmless
  undefined : ∀ l ∈ f.lines, l.defined? ≠ some mainName
  closes : Closes f.lines

variable {f : Function} {p : Text} {call : Call} {copy : Nat}

/-- The body ends before a return, so the end of the function is not in it. -/
theorem bodyLines_open (closes : Closes f.lines) (ends : ∃ l ∈ f.afterLabel, l.isReturn = true) :
    ∀ l ∈ f.bodyLines, l.hasOpcode Opcode.functionEnd = false := by
  obtain ⟨before, hlines⟩ : f.afterLabel <:+ f.lines := (List.tail_suffix _).trans (List.dropWhile_suffix _)
  have split : f.bodyLines ++ f.afterLabel.dropWhile (fun l => !l.isReturn) = f.afterLabel :=
    List.takeWhile_append_dropWhile
  have more : f.afterLabel.dropWhile (fun l => !l.isReturn) ≠ [] := by
    obtain ⟨l, hl, hr⟩ := ends
    rw [Ne, List.dropWhile_eq_nil_iff]
    exact fun all => by simpa [hr] using all l hl
  obtain ⟨inner, last, heq, hinner, -⟩ := closes
  rw [← hlines, ← split, ← List.dropLast_append_getLast more, ← List.append_assoc, ← List.append_assoc] at heq
  have inner_eq := (List.append_inj' heq rfl).1
  intro l hl
  exact hinner l (inner_eq ▸ List.mem_append_left _ (List.mem_append_right _ hl))

/-- A line of a copy is a harmless line renamed. -/
theorem SparesMain.of_mem_copyLines [KeyOrder] (h : f.SparesMain) {l : Line} (hl : l ∈ f.copyLines copy) :
    ∃ k ∈ f.bodyLines, k.Harmless ∧ l = k.renameIds (guarded (f.lineName copy)) := by
  obtain ⟨k, hk, rfl⟩ := mem_copyLines.mp hl
  have harmless := h.harmless k (bodyLines_subset hk)
  exact ⟨k, hk, harmless, congrArg Line.mk (renameIds_guarded harmless.equalsFree).symm⟩

theorem SparesMain.copyLines [KeyOrder] (h : f.SparesMain) : ∀ l ∈ f.copyLines copy, l.Harmless := by
  intro l hl
  obtain ⟨k, -, harmless, rfl⟩ := h.of_mem_copyLines hl
  exact harmless.renameIds (f.spares_lineName copy)

theorem SparesMain.copyLines_open [KeyOrder] (h : f.SparesMain) (ends : ∃ l ∈ f.afterLabel, l.isReturn = true) :
    ∀ l ∈ f.copyLines copy, l.hasOpcode Opcode.functionEnd = false := by
  intro l hl
  obtain ⟨k, hk, harmless, rfl⟩ := h.of_mem_copyLines hl
  rw [(harmless.sameRole (f.spares_lineName copy)).hasOpcode (by decide)]
  exact bodyLines_open h.closes ends k hk

/-- The value returned stands on a line that returns a value. -/
theorem SparesMain.value {value : Text} (h : f.SparesMain) (hv : f.returnValue? = some value) :
    IsIdent value ∧ '=' ∉ value ∧ value ≠ mainName := by
  obtain ⟨l, hfound, hid⟩ := Option.bind_eq_some_iff.mp hv
  have hl := h.harmless l (List.mem_of_find?_eq_some hfound)
  have hmem := List.mem_of_mem_head? hid
  refine ⟨isIdent_of_mem hmem, hl.equalsFree value hmem, ?_⟩
  rintro rfl
  exact hl.notReturned (List.find?_some hfound) hid

theorem SparesMain.copyRenames (h : f.SparesMain) {l : Line} (hl : l.Harmless) (hcall : l.isCall = true)
    (hline : Call.ofLine l = .ok call) : ∀ r ∈ f.copyRenames copy call, r.SparesMain := by
  have arguments := Line.arguments_of_call hcall hline
  have result := Line.result?_of_call hcall hline
  intro r hr
  rcases mem_copyRenames hr with ⟨q, hq, hold, hnew⟩ | ⟨value, hvalue, rfl⟩
  · have hmem := Call.mem_rhsIds hline hnew
    have hid := Line.isIdent_of_mem_rhsIds hmem
    refine ⟨hid.isName (hl.equalsFree.rhsIds _ hmem), hid, fun he => ?_, fun he => ?_⟩
    · exact hl.notPassed (arguments ▸ he ▸ hnew)
    · obtain ⟨k, hk, hkd⟩ := List.mem_filterMap.mp hq
      have hmain := not_imp_not.mp (f.nameIn_ne_mainName copy) (hold.symm.trans he)
      exact h.undefined k (parameterLines_subset hk) (by rw [hkd, hmain])
  · obtain ⟨hid, hequals, hne⟩ := h.value hvalue
    refine ⟨Inlining.isName_nameInCopy hid hequals, Inlining.isIdent_nameInCopy hid, f.nameIn_ne_mainName copy hne, ?_⟩
    exact fun he => hl.notResult (result.trans (congrArg some he))

end Function

/-! ## A pass -/

/-- The plain functions leave the name of main alone. -/
def Module.SparesMain (m : Module) : Prop :=
  ∀ f ∈ m.plainFunctions, f.SparesMain

/-- One run of lines that starts with the declaration of main. -/
structure MainRun (ls : List Line) : Prop where
  harmless : ∀ l ∈ ls, l.Harmless
  closes : Closes ls
  named : runName ls = .ok mainName

variable {p : Text} {m : Module} {copied copied' : List Text} {ls lines : List Line} {e : Expansion} {f : Text → Text}

namespace Expands

variable [KeyOrder]

theorem harmless (spares : m.SparesMain) (h : Expands p m copied ls copied' e) (hls : ∀ l ∈ ls, l.Harmless) :
    ∀ l ∈ e.lines, l.Harmless :=
  h.forall_lines hls fun f hf _ => (spares f hf).copyLines

theorem renames_spare (spares : m.SparesMain) (h : Expands p m copied ls copied' e) (hls : ∀ l ∈ ls, l.Harmless) :
    ∀ r ∈ e.renames, r.SparesMain := by
  intro r hr
  obtain ⟨k, call, f, copy, c, hr⟩ := h.mem_renames hr
  exact (spares f c.plain).copyRenames (hls k c.mem) c.isCall c.read r hr

/-- The last line is no call, and the copies before it do not end main. -/
theorem closes (spares : m.SparesMain) (h : Expands p m copied ls copied' e) (hls : Closes ls) : Closes e.lines := by
  induction h with
  | nil copied => exact hls
  | keep _ hrest ih =>
    refine closes_cons.mpr ((closes_cons.mp hls).imp (fun h => ⟨?_, h.2⟩) fun h => ⟨h.1, ih h.2⟩)
    rw [h.1] at hrest
    cases hrest
    rfl
  | copy hcall _ hres hcopy _ ih =>
    rcases closes_cons.mp hls with ⟨-, hend⟩ | ⟨-, hls⟩
    · have hop := eq_of_beq hcall
      rw [Line.hasOpcode, hop] at hend
      exact absurd hend (by decide)
    · exact (ih hls).append ((spares _ (Module.plain_of_resolve hres).1).copyLines_open hcopy.ends)

theorem runName (h : Expands p m copied ls copied' e) {name : Text} (hls : runName ls = .ok name) :
    Module.runName e.lines = .ok name := by
  obtain ⟨first, hfirst, hstarts, hdefined⟩ := runName_eq_ok.mp hls
  cases h with
  | nil copied => cases hfirst
  | keep _ _ =>
    cases hfirst
    exact runName_eq_ok.mpr ⟨first, rfl, hstarts, hdefined⟩
  | copy hcall _ _ _ _ =>
    cases hfirst
    have hop : first.opcode? = some Opcode.functionCall := eq_of_beq hcall
    rw [Line.startsFunction, Line.hasOpcode, hop] at hstarts
    exact absurd hstarts (by decide)

end Expands

namespace MainRun

theorem map {g : Line → Line} (h : MainRun ls) (harmless : ∀ l ∈ ls, (g l).Harmless)
    (role : ∀ l ∈ ls, SameRole l (g l)) (named : ∀ l ∈ ls, l.defined? = some mainName → (g l).defined? = some mainName) :
    MainRun (ls.map g) := by
  refine ⟨List.forall_mem_map.mpr harmless, ?_, ?_⟩
  · exact h.closes.of_roles (List.forall₂_map_right_iff.mpr (List.forall₂_same.mpr role))
  · obtain ⟨first, hfirst, hstarts, hdefined⟩ := runName_eq_ok.mp h.named
    have hmem := List.mem_of_mem_head? hfirst
    refine runName_eq_ok.mpr ⟨g first, ?_, by rw [(role first hmem).startsFunction, hstarts], named first hmem hdefined⟩
    rw [List.head?_map, Option.mem_def.mp hfirst]
    rfl

theorem trim (h : MainRun ls) : MainRun (ls.map Line.trim) :=
  h.map (fun l hl => (h.harmless l hl).trim) (fun l _ => sameRole_trim l) fun l _ hd => by rw [defined?_trim, hd]

/-- A renaming of all lines that leaves main its name. -/
theorem renameIds (h : MainRun ls) (hf : SparesMain f) (hmain : f mainName = mainName) :
    MainRun (ls.map (Line.renameIds f)) := by
  refine h.map (fun l hl => (h.harmless l hl).renameIds hf) (fun l hl => (h.harmless l hl).sameRole hf) fun l hl hd => ?_
  rw [(h.harmless l hl).equalsFree.defined?_renameIds hf.keeps, hd, Option.map_some, renameIds_of_isIdent f isIdent_mainName,
    hmain]

theorem pass [KeyOrder] (spares : m.SparesMain) {i : Inliner} (h : MainRun ls) (hpass : (i.pass m ⟨ls⟩).result = .ok lines) :
    MainRun lines := by
  obtain ⟨copied', e, he, rfl⟩ := exists_expands_of_pass hpass
  have renames : ∀ r ∈ e.told.renames, r.SparesMain := fun r hr =>
    he.renames_spare spares h.harmless r (List.mem_filter.mp hr).1
  have hmain : Rename.composed e.told.renames mainName = mainName := by
    refine Rename.composed_of_not_mem fun hm => ?_
    obtain ⟨r, hr, hold⟩ := List.mem_map.mp hm
    exact (renames r hr).old hold
  have expanded : MainRun e.lines :=
    ⟨he.harmless spares h.harmless, he.closes spares h.closes, he.runName h.named⟩
  rw [Rename.applyAll_eq_map fun r hr => (renames r hr).ident]
  exact (expanded.renameIds (Rename.spares_composed renames) hmain).trim

end MainRun

end SpirvLink
