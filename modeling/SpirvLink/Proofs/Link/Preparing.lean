/-
  SpirvLink.Proofs.Link.Preparing — the lines of the kernel as they are joined.

  Under the standard options a prefix goes behind every percent sign, which renames the
  identifiers if they are plain (`prefixIds_eq`), and the storage class `Function` becomes
  `Uniform`. The class is a word or stands between underscores, and no opcode that limits a
  region is such a word or holds an underscore, so every line keeps its role
  (`sameRole_toUniform`). All identifiers then start with the prefix, so none is the name of
  main (`Prepared`).
-/

import SpirvLink.Link.Basic
import SpirvLink.Proofs.Line.EqualsFree
import SpirvLink.Proofs.Line.StorageClass
import SpirvLink.Proofs.Line.WellSpaced
import SpirvLink.Proofs.Text.Prefixing

namespace SpirvLink

open Text

/-! ## Another storage class -/

namespace Storage

def old : Text := "Function".toList

def new : Text := "Uniform".toList

theorem isClass_old : IsClass old := by decide

theorem isClass_new : IsClass new := by decide

variable {w w' : Text}

/-- The first letters of an opcode that says something about regions. -/
theorem head?_of_limit : ∀ op ∈ Opcode.limits ++ Opcode.definitionStems, op.head? = some 'O' ∧ '_' ∉ op := by
  decide

theorem alike_of_head {w w' : Text} (h : w.head? ≠ some 'O') (h' : w'.head? ≠ some 'O') : Alike w w' := by
  have untyped : ∀ {v : Text}, v.head? ≠ some 'O' → Opcode.isTypeOrConstant v = false := by
    intro v hv
    rw [Opcode.isTypeOrConstant, List.any_eq_false]
    intro stem hstem hpre
    obtain ⟨t, rfl⟩ := List.isPrefixOf_iff_prefix.mp hpre
    refine hv ?_
    rw [List.head?_append, (head?_of_limit stem (List.mem_append_right _ hstem)).1]
    rfl
  refine ⟨fun op hop => ?_, by rw [untyped h, untyped h']⟩
  have first := (head?_of_limit op (List.mem_append_left _ hop)).1
  exact iff_of_false (fun e => h' (e ▸ first)) fun e => h (e ▸ first)

theorem alike_inName (v : Text) : Alike v (inName old new v) := by
  have keeps : ∀ op ∈ Opcode.limits ++ Opcode.definitionStems,
      (op <+: inName old new v ↔ op <+: v) ∧ (inName old new v = op ↔ v = op) :=
    fun op hop => (replaced_inName old new v).prefix_iff (d := '_') rfl rfl (head?_of_limit op hop).2
  refine ⟨fun op hop => (keeps op (List.mem_append_left _ hop)).2, ?_⟩
  rw [Opcode.isTypeOrConstant, Opcode.isTypeOrConstant, Bool.eq_iff_iff, List.any_eq_true, List.any_eq_true]
  refine exists_congr fun stem => and_congr_right fun hstem => ?_
  rw [List.isPrefixOf_iff_prefix, List.isPrefixOf_iff_prefix]
  exact (keeps stem (List.mem_append_right _ hstem)).1

theorem Moved.alike (h : Moved old new w w') : Alike w w' := by
  obtain ⟨v, rfl | ⟨r, rfl, rfl⟩, rfl⟩ := h
  · exact alike_inName _
  · refine alike_of_head (show some 'F' ≠ some 'O' by decide) ?_
    rw [(replaced_inName old new _).head? (d := '_') rfl rfl]
    exact show some 'U' ≠ some 'O' by decide

end Storage

namespace Line

open Storage

def toUniform (l : Line) : Line :=
  l.moveStorageClass Storage.old Storage.new

variable {l : Line}

theorem hasCode_toUniform (l : Line) : l.toUniform.hasCode = l.hasCode := by
  rw [Bool.eq_iff_iff, hasCode_iff, hasCode_iff]
  have words : List.Forall₂ _ (Text.words l.text) (Text.words l.toUniform.text) := words_inText isClass_old isClass_new l.text
  generalize Text.words l.text = ws at words
  generalize Text.words l.toUniform.text = ws' at words
  cases words with
  | nil => exact Iff.rfl
  | cons hw _ =>
    have first := hw.head? (c := commentMarker) isClass_old isClass_new (by decide) (by decide)
    constructor
    · rintro ⟨_, _, heq, hne⟩
      cases heq
      exact ⟨_, _, rfl, fun e => hne (first.mpr e)⟩
    · rintro ⟨_, _, heq, hne⟩
      cases heq
      exact ⟨_, _, rfl, fun e => hne (first.mp e)⟩

/-- Another storage class makes no other instruction of a line. -/
theorem sameRole_toUniform (l : Line) : SameRole l l.toUniform := by
  refine sameRole_of_words (hasCode_toUniform l) (List.Forall₂.imp (fun _ _ => Moved.alike) ?_)
  cases hs : l.halves? with
  | none =>
    have hs' : l.toUniform.halves? = none := halves?_moveStorageClass_none isClass_old isClass_new hs
    rw [instruction_of_none hs, instruction_of_none hs', words_trim, words_trim]
    exact words_inText isClass_old isClass_new l.text
  | some h =>
    have hs' := halves?_moveStorageClass_some isClass_old isClass_new hs
    rw [instruction_of_halves hs, toUniform, instruction_of_halves hs', words_trim, words_trim]
    exact words_inText isClass_old isClass_new h.2

end Line

/-! ## A prefix -/

namespace Line

variable {l : Line} {p : Text}

theorem isName_withPrefix (hp : ∀ c ∈ p, isBlank c = false ∧ c ≠ '=') {id : Text} (hid : IsIdent id) (h : '=' ∉ id) :
    IsName (withPrefix p id) := by
  refine ⟨rfl, fun c hc => ?_, fun hm => ?_⟩
  · rcases List.mem_append.mp hc with hc | hc
    · rcases List.mem_cons.mp hc with rfl | hc
      · decide
      · exact (hp c hc).1
    · exact hid.not_blank c (List.mem_of_mem_tail hc)
  · rcases List.mem_append.mp hm with hm | hm
    · rcases List.mem_cons.mp hm with he | hm
      · exact absurd he (by decide)
      · exact (hp _ hm).2 rfl
    · exact h (List.mem_of_mem_tail hm)

theorem prefixIds_eq_renameIds (hl : ∀ id ∈ l.ids, IsPlainIdent id) : l.prefixIds p = l.renameIds (withPrefix p) :=
  congrArg Line.mk (prefixIds_eq p fun id hid => (hl id hid).2.2)

theorem sameRole_prefixIds (hp : ∀ c ∈ p, isBlank c = false ∧ c ≠ '=') (hl : ∀ id ∈ l.ids, IsPlainIdent id) :
    SameRole l (l.prefixIds p) := by
  rw [prefixIds_eq_renameIds hl]
  exact EqualsFree.sameRole (fun id hid => (hl id hid).2.1) fun id hid h => isName_withPrefix hp hid h

theorem equalsFree_prefixIds (hp : ∀ c ∈ p, isBlank c = false ∧ c ≠ '=') (hl : ∀ id ∈ l.ids, IsPlainIdent id) :
    (l.prefixIds p).EqualsFree := by
  rw [prefixIds_eq_renameIds hl]
  exact Text.equalsFree_renameIds fun id hid => (isName_withPrefix hp (hl id hid).1 (hl id hid).2.1).noEquals

end Line

/-! ## Both -/

namespace Link

/-- What the options make of a line of the kernel. -/
def fixLine (o : Options) (l : Line) : Line :=
  (l.prefixIds o.kernelPrefix).moveStorageClass o.storageClassFrom o.storageClassTo

/-- What the standard options make of it. -/
def prepareLine (l : Line) : Line :=
  (l.prefixIds Options.standard.kernelPrefix).toUniform

theorem prepared_eq_mapLines (o : Options) (kernel : Module) : prepared o kernel = kernel.mapLines (fixLine o) := by
  rw [prepared, namespaced, Module.moveStorageClass, Module.mapLines, Module.mapLines, Module.mapLines, Module.mapBlocks,
    Module.mapBlocks, Module.mapBlocks, List.map_map]
  refine congrArg Module.mk (List.map_congr_left fun b _ => ?_)
  rw [Function.comp_apply, Block.mapLines, Block.mapLines, List.map_map]
  rfl

theorem prepared_standard (kernel : Module) : prepared .standard kernel = kernel.mapLines prepareLine :=
  prepared_eq_mapLines .standard kernel

/-- A line of the kernel keeps its role, and its identifiers start with the prefix. -/
structure Prepared (l l' : Line) : Prop where
  role : Line.SameRole l l'
  equalsFree : l'.EqualsFree
  marked : Marked 'r' l'.text
  trimmed : l.trim = l → l'.trim = l'
  oneLine : '\n' ∉ l.text → '\n' ∉ l'.text

variable {l l' : Line}

/-- The name of main does not start with the prefix. -/
theorem Prepared.not_main (h : Prepared l l') : Module.mainName ∉ l'.ids ∧ l'.defined? ≠ some Module.mainName := by
  have absent : ∀ before after : Text, l'.text ≠ before ++ Module.mainName ++ after := by
    intro before after heq
    have name : Module.mainName = sigil :: 'm' :: "ain".toList := by decide
    rw [List.append_assoc, name] at heq
    exact absurd (h.marked.after heq) (show some 'm' ≠ some 'r' by decide)
  constructor
  · intro hid
    obtain ⟨gs, gs', heq⟩ := List.append_of_mem (mem_identifiers.mp hid)
    refine absent (gs.flatMap Segment.text) (gs'.flatMap Segment.text) ?_
    conv_lhs => rw [← flatMap_segments l'.text, heq]
    simp [Segment.text]
  · intro hd
    obtain ⟨⟨before, after⟩, hs, -⟩ := Option.map_eq_some_iff.mp hd
    obtain ⟨htext, -⟩ := cutAt_eq_some.mp (Line.halves?_eq_some.mp hs).1
    obtain ⟨blanks, rest, hbefore, -⟩ := words_eq_cons.mp (Line.EqualsFree.words_before hs hd)
    refine absent blanks (rest ++ '=' :: after) ?_
    rw [htext, hbefore]
    simp

theorem prepared_prepareLine (hl : ∀ id ∈ l.ids, IsPlainIdent id) : Prepared l (prepareLine l) := by
  have hp : ∀ c ∈ Options.standard.kernelPrefix, isBlank c = false ∧ c ≠ '=' := forall_of_all (by decide)
  have fits : Fits Options.standard.kernelPrefix := by decide
  obtain ⟨t, ht, hs⟩ := Storage.replaced_inText Storage.old Storage.new (l.prefixIds Options.standard.kernelPrefix).text
  refine ⟨(Line.sameRole_prefixIds hp hl).trans (Line.sameRole_toUniform _), ?_, ?_, fun trimmed => ?_, fun hline hm => ?_⟩
  · exact equalsFree_replaceAll (by decide) (by decide) (by decide)
      (equalsFree_replaceAll_space (by decide) (by decide) (Line.equalsFree_prefixIds hp hl))
  · have marked : Marked 'r' (l.prefixIds Options.standard.kernelPrefix).text := marked_prefixIds rfl (by decide) _
    exact hs.marked (by decide) (by decide) (by decide) (by decide)
      (ht.marked (by decide) (by decide) (by decide) (by decide) marked)
  · have start : trim l.text = l.text := congrArg Line.text trimmed
    exact congrArg Line.mk (Storage.trim_inText Storage.isClass_new ((trim_prefixIds fits l.text).trans (congrArg (prefixIds _) start)))
  · rcases hs.mem hm with hm | hm
    · rcases ht.mem hm with hm | hm
      · exact (mem_prefixIds hm).elim hline (by decide)
      · exact absurd hm (by decide)
    · exact absurd hm (by decide)

end Link

end SpirvLink
