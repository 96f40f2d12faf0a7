/-
  SpirvLink.Proofs.Fusion — what fusing and sweeping leave of a block.

  The identifiers that fusion puts in were defined on some line, so it never makes another
  opcode of the one a line has, and the lines that it deletes are types and constants. What
  is left of a block therefore says nothing new, and every other instruction is still there
  (`Block.Left`). Fusion leaves each block in its place (`left_of_fuse`).
-/

import SpirvLink.Fusion
import SpirvLink.Proofs.Line.Roles

namespace SpirvLink

/-! ## What is left of a block -/

/-- The lines of the second block say nothing that the first does not say, as far as no
    identifier is concerned, and only types and constants are gone. -/
structure Block.Left (b b' : Block) : Prop where
  kind : b'.kind = b.kind
  said : ∀ l' ∈ b'.lines, ∃ l ∈ b.lines,
    (∀ op, Text.sigil ∉ op → l'.opcode? = some op → l.opcode? = some op) ∧
      ∀ t, Text.sigil ∉ t → t ∈ l'.operands → t ∈ l.operands
  kept : ∀ op, Text.sigil ∉ op → Opcode.isTypeOrConstant op = false →
    ∀ l ∈ b.lines, l.opcode? = some op → ∃ l' ∈ b'.lines, l'.opcode? = some op

namespace Block

variable {a b c : Block}

theorem Left.trans (h : Left a b) (h' : Left b c) : Left a c := by
  refine ⟨h'.kind.trans h.kind, fun l hl => ?_, fun op hop hdef l hl hopcode => ?_⟩
  · obtain ⟨k, hk, opcode, operand⟩ := h'.said l hl
    obtain ⟨j, hj, opcode', operand'⟩ := h.said k hk
    exact ⟨j, hj, fun op hop ho => opcode' op hop (opcode op hop ho),
      fun t ht hm => operand' t ht (operand t ht hm)⟩
  · obtain ⟨k, hk, hopcode⟩ := h.kept op hop hdef l hl hopcode
    exact h'.kept op hop hdef k hk hopcode

/-- Lines without code can be dropped. -/
theorem left_filter {p : Line → Bool} (hp : ∀ l, l.hasCode = true → p l = true) (b : Block) :
    Left b { b with lines := b.lines.filter p } := by
  refine ⟨rfl, fun l hl => ⟨l, (List.mem_filter.mp hl).1, fun _ _ h => h, fun _ _ h => h⟩,
    fun op _ _ l hl ho => ⟨l, List.mem_filter.mpr ⟨hl, hp l ?_⟩, ho⟩⟩
  unfold Line.opcode? at ho
  split at ho
  · assumption
  · cases ho

theorem not_isEmpty_of_hasCode {l : Line} (h : l.hasCode = true) : l.isEmpty = false := by
  obtain ⟨u, vs, hw, -⟩ := Line.hasCode_iff.mp h
  rw [Bool.eq_false_iff, Line.isEmpty]
  intro hall
  rw [Text.words_eq_nil_iff.mpr (List.all_eq_true.mp hall)] at hw
  cases hw

theorem left_dropEmptyLines (b : Block) : Left b b.dropEmptyLines :=
  left_filter (fun l hl => by rw [not_isEmpty_of_hasCode hl]; rfl) b

theorem left_dropNonCodeLines (b : Block) : Left b b.dropNonCodeLines :=
  left_filter (fun _ hl => hl) b

end Block

/-! ## Definitions on lines -/

namespace Line

open Fusion (definition?)

variable {l : Line} {id rhs : Text}

theorem definition?_eq_some : definition? l = some (id, rhs) ↔ l.isTypeOrConstant = true ∧
    ∃ before after, l.halves? = some (before, after) ∧ Text.trim before = id ∧
      Text.unwords (Text.words after) = rhs := by
  unfold definition? defined? rhs?
  cases l.halves? with
  | none => simp
  | some halves =>
    obtain ⟨before, after⟩ := halves
    simp [Text.words_trim]

theorem defined?_of_definition (h : definition? l = some (id, rhs)) : l.defined? = some id := by
  obtain ⟨-, before, after, hs, rfl, -⟩ := definition?_eq_some.mp h
  rw [defined?, hs]
  rfl

end Line

/-! ## What becomes of one line -/

namespace Fusion

variable {s : Fusion} {l l' : Line} {f : Text → Text}

/-- The operands of the line are renamed, or it is a type or constant and deleted. -/
def Fate (l l' : Line) : Prop :=
  (∃ f, Text.Keeps f ∧ l' = l.renameOperands f) ∨ l' = Line.blank ∧ l.isTypeOrConstant = true

theorem left_of_fates {kind : BlockKind} {ls ls' : List Line} (h : List.Forall₂ Fate ls ls') :
    Block.Left ⟨kind, ls⟩ ⟨kind, ls'⟩ := by
  refine ⟨rfl, ?_, ?_⟩
  · induction h with
    | nil => exact fun l hl => (by cases hl)
    | @cons l l' ls ls' hfate _ ih =>
      intro k hk
      rcases List.mem_cons.mp hk with rfl | hk
      · refine ⟨l, List.mem_cons_self .., ?_⟩
        rcases hfate with ⟨f, hf, rfl⟩ | ⟨rfl, -⟩
        · have hr := Line.renamed_renameOperands (l := l) hf
          exact ⟨fun op hop => (hr.opcode?_eq_some hf hop).mp, fun t ht => (hr.mem_operands hf ht).mp⟩
        · exact ⟨fun op _ ho => (by cases ho), fun t _ ht => (by cases ht)⟩
      · obtain ⟨j, hj, hjk⟩ := ih k hk
        exact ⟨j, List.mem_cons_of_mem _ hj, hjk⟩
  · intro op hop hdef
    induction h with
    | nil => exact fun l hl => (by cases hl)
    | @cons l l' ls ls' hfate _ ih =>
      intro k hk ho
      rcases List.mem_cons.mp hk with rfl | hk
      · rcases hfate with ⟨f, hf, rfl⟩ | ⟨-, htype⟩
        · have hr := Line.renamed_renameOperands (l := k) hf
          exact ⟨k.renameOperands f, List.mem_cons_self .., (hr.opcode?_eq_some hf hop).mpr ho⟩
        · rw [Line.isTypeOrConstant, ho, Option.any_some, hdef] at htype
          cases htype
      · obtain ⟨j, hj, hjk⟩ := ih k hk ho
        exact ⟨j, List.mem_cons_of_mem _ hj, hjk⟩

/-! ## Tables of names -/

theorem mem_of_lookup {t : List (Text × Text)} {key value : Text} (h : t.lookup key = some value) :
    (key, value) ∈ t := by
  obtain ⟨before, after, rfl, -⟩ := List.lookup_eq_some_iff.mp h
  exact List.mem_append_right _ (List.mem_cons_self ..)

theorem keeps_apply {t : RenameTable} (h : ∀ r ∈ t, Text.IsName r.2) : Text.Keeps t.apply := by
  intro id _
  unfold RenameTable.apply
  cases hl : t.lookup id with
  | none => exact Or.inl rfl
  | some new => exact Or.inr (h _ (mem_of_lookup hl))

/-- What the first reading knows are identifiers that lines define. -/
structure Named (s : Fusion) : Prop where
  known : ∀ r ∈ s.known, Text.IsName r.2
  renames : ∀ r ∈ s.renames, Text.IsName r.2

theorem named_start : Named start :=
  ⟨fun r hr => (by cases hr), fun r hr => (by cases hr)⟩

theorem isName_of_definition {id rhs : Text} (h : definition? l = some (id, rhs)) : Text.IsName id :=
  Line.isName_of_defined (Line.defined?_of_definition h)

theorem isTypeOrConstant_of_definition {d : Text × Text} (h : definition? l = some d) :
    l.isTypeOrConstant = true :=
  (Line.definition?_eq_some.mp h).1

theorem hasCode_of_definition {d : Text × Text} (h : definition? l = some d) : l.hasCode = true := by
  obtain ⟨-, before, after, hs, -⟩ := Line.definition?_eq_some.mp h
  exact Line.hasCode_of_halves (by rw [hs]; rfl)

theorem filterMap_cons_definition (l : Line) (ls : List Line) :
    (l :: ls).filterMap definition? = (definition? l).toList ++ ls.filterMap definition? := by
  cases hl : definition? l <;> simp [hl]

/-- What reading a line does: a line without code stays; other lines have their operands
    renamed, and a definition among them is deleted if its right-hand side is known, and
    remembered if it is not. -/
inductive ReadsLine (s : Fusion) (l : Line) : Fusion → Line → Prop
  | bare (hcode : l.hasCode = false) : ReadsLine s l s l
  | other (hcode : l.hasCode = true) (hd : definition? (l.renameOperands s.renames.apply) = none) :
      ReadsLine s l s (l.renameOperands s.renames.apply)
  | deleted {id key first : Text} (hcode : l.hasCode = true)
      (hd : definition? (l.renameOperands s.renames.apply) = some (id, key)) (hk : s.known.lookup key = some first) :
      ReadsLine s l { s with renames := s.renames.insert id first, log := s.log ++ [.fusing id first key] } Line.blank
  | kept {id key : Text} (hcode : l.hasCode = true)
      (hd : definition? (l.renameOperands s.renames.apply) = some (id, key)) (hk : s.known.lookup key = none) :
      ReadsLine s l { s with known := (key, id) :: s.known } (l.renameOperands s.renames.apply)

theorem readsLine (s : Fusion) (l : Line) : ReadsLine s l (s.readLine l).1 (s.readLine l).2 := by
  unfold readLine
  split
  · next hcode =>
    dsimp only
    split
    · next hd => exact .other hcode hd
    · next hd =>
      split
      · next hk => exact .deleted hcode hd hk
      · next hk => exact .kept hcode hd hk
  · next hcode => exact .bare (Bool.eq_false_iff.mpr hcode)

theorem readLine_eq_iff {s' : Fusion} : s.readLine l = (s', l') ↔ ReadsLine s l s' l' := by
  constructor
  · intro h
    have reads := readsLine s l
    rwa [h] at reads
  · intro h
    unfold readLine
    cases h with
    | bare hcode => simp only [hcode, Bool.false_eq_true, if_false]
    | other hcode hd => simp only [hcode, if_true, hd]
    | deleted hcode hd hk => simp only [hcode, if_true, hd, hk]
    | kept hcode hd hk => simp only [hcode, if_true, hd, hk]

theorem readLine_named (h : Named s) (l : Line) : Named (s.readLine l).1 := by
  rcases hr : s.readLine l with ⟨s', l'⟩
  cases readLine_eq_iff.mp hr with
  | bare _ => exact h
  | other _ _ => exact h
  | @deleted id key first _ _ hk =>
    refine ⟨h.known, fun r hr => ?_⟩
    rcases List.mem_cons.mp hr with rfl | hr
    · exact h.known (key, first) (mem_of_lookup hk)
    · exact h.renames r (List.mem_filter.mp hr).1
  | kept _ hd _ =>
    refine ⟨fun r hr => ?_, h.renames⟩
    rcases List.mem_cons.mp hr with rfl | hr
    · exact isName_of_definition hd
    · exact h.known r hr

/-- A type or constant is deleted, or the operands of the line are renamed, or it has no code and stays. -/
theorem readLine_cases (h : Named s) (l : Line) : ((s.readLine l).2 = Line.blank ∧ l.isTypeOrConstant = true) ∨
    (s.readLine l).2 = l.renameOperands s.renames.apply ∨ (s.readLine l).2 = l := by
  rcases hr : s.readLine l with ⟨s', l'⟩
  cases readLine_eq_iff.mp hr with
  | bare _ => exact Or.inr (Or.inr rfl)
  | other _ _ => exact Or.inr (Or.inl rfl)
  | deleted _ hd _ =>
    have hf := keeps_apply h.renames
    refine Or.inl ⟨rfl, ?_⟩
    rw [← ((Line.renamed_renameOperands hf).sameRole hf).typed]
    exact isTypeOrConstant_of_definition hd
  | kept _ _ _ => exact Or.inr (Or.inl rfl)

theorem readLine_fate (h : Named s) (l : Line) : Fate l (s.readLine l).2 := by
  rcases readLine_cases h l with ⟨deleted, typed⟩ | renamed | same
  · exact Or.inr ⟨deleted, typed⟩
  · exact Or.inl ⟨_, keeps_apply h.renames, renamed⟩
  · exact Or.inl ⟨_, fun _ _ => Or.inl rfl, same.trans l.renameOperands_id.symm⟩

theorem readLines_fates : ∀ {s : Fusion} (ls : List Line), Named s →
    Named (s.readLines ls).1 ∧ List.Forall₂ Fate ls (s.readLines ls).2
  | _, [], h => ⟨h, .nil⟩
  | s, l :: ls, h => by
    have rest := readLines_fates ls (readLine_named h l)
    exact ⟨rest.1, .cons (readLine_fate h l) rest.2⟩

theorem readLines_append : ∀ (s : Fusion) (ls ks : List Line), s.readLines (ls ++ ks) =
    (((s.readLines ls).1.readLines ks).1, (s.readLines ls).2 ++ ((s.readLines ls).1.readLines ks).2)
  | _, [], _ => rfl
  | s, l :: ls, ks => by
    show (((s.readLine l).1.readLines (ls ++ ks)).1, (s.readLine l).2 :: ((s.readLine l).1.readLines (ls ++ ks)).2) = _
    rw [readLines_append (s.readLine l).1 ls ks]
    rfl

/-- Reading blocks is reading their lines. -/
theorem readLines_flatMap : ∀ (s : Fusion) (bs : List Block), s.readLines (bs.flatMap Block.lines) =
    ((s.readBlocks bs).1, (s.readBlocks bs).2.flatMap Block.lines)
  | _, [] => rfl
  | s, b :: bs => by
    rw [List.flatMap_cons, readLines_append, readLines_flatMap (s.readLines b.lines).1 bs]
    rfl

/-- Every line of the first block has its fate in the second. -/
structure BlockFate (b b' : Block) : Prop where
  kind : b'.kind = b.kind
  lines : List.Forall₂ Fate b.lines b'.lines

theorem BlockFate.left {b b' : Block} (h : BlockFate b b') : Block.Left b b' := by
  obtain ⟨kind, ls⟩ := b
  obtain ⟨kind', ls'⟩ := b'
  obtain rfl : kind' = kind := h.kind
  exact left_of_fates h.lines

theorem readBlocks_fates : ∀ {s : Fusion} (bs : List Block), Named s →
    Named (s.readBlocks bs).1 ∧ List.Forall₂ BlockFate bs (s.readBlocks bs).2
  | _, [], h => ⟨h, .nil⟩
  | s, b :: bs, h => by
    have here := readLines_fates b.lines h
    have rest := readBlocks_fates bs here.1
    exact ⟨rest.1, .cons ⟨rfl, here.2⟩ rest.2⟩

end Fusion

/-! ## The whole module -/

open Fusion

/-- The operands of all lines renamed, and the empty lines dropped. -/
def Block.rereading (f : Text → Text) (b : Block) : Block :=
  (b.mapLines (Line.renameOperands f)).dropEmptyLines

/-- After the first reading the lines are as they are, or all of them are renamed. -/
theorem fuse_eq_ok {m m' : Module} {n : Nat} (h : m.fuse.result = .ok (n, m')) :
    List.Forall₂ BlockFate m.blocks (start.readBlocks m.blocks).2 ∧
      (m'.blocks = (start.readBlocks m.blocks).2 ∨
        ∃ f, Text.Keeps f ∧ m'.blocks = (start.readBlocks m.blocks).2.map (Block.rereading f)) := by
  obtain ⟨named, fates⟩ := readBlocks_fates m.blocks named_start
  refine ⟨fates, ?_⟩
  unfold Module.fuse at h
  dsimp only at h
  split at h
  · cases h
    exact Or.inl rfl
  · cases h
    refine Or.inr ⟨_, keeps_apply named.renames, ?_⟩
    rw [Module.mapLines, Module.mapBlocks, Module.mapBlocks, List.map_map]
    rfl

theorem left_rereading {f : Text → Text} (hf : Text.Keeps f) (b : Block) : Block.Left b (b.rereading f) := by
  have renamed : BlockFate b (b.mapLines (Line.renameOperands f)) :=
    ⟨rfl, List.forall₂_map_right_iff.mpr (List.forall₂_same.mpr fun l _ => Or.inl ⟨f, hf, rfl⟩)⟩
  exact renamed.left.trans (Block.left_dropEmptyLines _)

/-- Fusion keeps the blocks in order and leaves each one what is no type and no constant. -/
theorem left_of_fuse {m m' : Module} {n : Nat} (h : m.fuse.result = .ok (n, m')) :
    List.Forall₂ Block.Left m.blocks m'.blocks := by
  obtain ⟨fates, heq | ⟨f, hf, heq⟩⟩ := fuse_eq_ok h
  · rw [heq]
    exact fates.imp fun _ _ hb => hb.left
  · rw [heq, List.forall₂_map_right_iff]
    exact fates.imp fun _ b' hb => hb.left.trans (left_rereading hf b')

end SpirvLink
