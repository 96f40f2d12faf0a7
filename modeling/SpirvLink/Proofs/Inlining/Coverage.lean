/-
  SpirvLink.Proofs.Inlining.Coverage — which code of a callee is copied.

  A copy holds every line of a body, in order: renamed, or as the copy for the call that the
  line has become (`Expanded`). So passes over main, one after the other, expand the lines
  that main had at the start (`inlineMain_expands`), and of a callee nothing but the body is
  seen.

  A body ends at the first return. Code behind that is left out without an error, so a
  callee that returns early is copied in part (`inlineMain_cuts_callee`). It is the only
  code left out (`Function.code_sublist_iff`).
-/

import SpirvLink.Proofs.Inlining.Declaration

namespace SpirvLink

/-! ## The code of a function -/

namespace Function

/-- The lines between the first label and the end of the function. -/
def inside (f : Function) : List Line :=
  f.afterLabel.takeWhile fun l => !l.hasOpcode Opcode.functionEnd

/-- The instructions among the lines that are no returns. -/
def instructions (ls : List Line) : List Line :=
  ls.filter fun l => l.hasCode && !l.isReturn

def code (f : Function) : List Line :=
  instructions f.inside

/-- The code behind the first return. -/
def lateCode (f : Function) : List Line :=
  instructions (f.inside.dropWhile fun l => !l.isReturn)

variable {f : Function}

/-- The body, as far as it stands before the end of the function. -/
def earlyLines (f : Function) : List Line :=
  f.inside.takeWhile fun l => !l.isReturn

theorem earlyLines_sublist : f.earlyLines.Sublist f.bodyLines := by
  have swap : f.earlyLines = f.bodyLines.takeWhile fun l => !l.hasOpcode Opcode.functionEnd := by
    rw [earlyLines, inside, bodyLines, List.takeWhile_takeWhile, List.takeWhile_takeWhile]
    simp only [and_comm]
  rw [swap]
  exact List.takeWhile_sublist _

/-- A return before the end closes the body. -/
theorem bodyLines_of_return {l : Line} (hl : l ∈ f.inside) (hreturn : l.isReturn = true) :
    f.bodyLines = f.earlyLines := by
  have split : f.afterLabel = f.inside ++ f.afterLabel.dropWhile fun l => !l.hasOpcode Opcode.functionEnd :=
    List.takeWhile_append_dropWhile.symm
  have short : (f.inside.takeWhile fun l => !l.isReturn).length ≠ f.inside.length := by
    intro h
    have whole := (List.takeWhile_prefix fun l : Line => !l.isReturn).eq_of_length h
    simpa [hreturn] using List.takeWhile_eq_self_iff.mp whole l hl
  rw [bodyLines, split, List.takeWhile_append, if_neg short]
  rfl

theorem code_eq : f.code = instructions f.earlyLines ++ f.lateCode := by
  rw [code, lateCode, instructions, instructions, instructions, ← List.filter_append, earlyLines,
    List.takeWhile_append_dropWhile]

theorem exists_return (h : f.lateCode ≠ []) : ∃ l ∈ f.inside, l.isReturn = true := by
  obtain ⟨l, hl⟩ := List.exists_mem_of_ne_nil _ h
  have late := (List.mem_filter.mp hl).1
  by_contra none
  rw [List.dropWhile_eq_nil_iff.mpr fun k hk => by simpa using fun hreturn => none ⟨k, hk, hreturn⟩] at late
  cases late

/-- A body holds all code of the function, in order, just if none is behind the first return. -/
theorem code_sublist_iff : f.code.Sublist f.bodyLines ↔ f.lateCode = [] := by
  constructor
  · intro h
    by_contra late
    obtain ⟨l, hl, hreturn⟩ := exists_return late
    rw [bodyLines_of_return hl hreturn] at h
    -- Without the returns, the early lines have no room for the late code.
    have shorter : (instructions f.code).length ≤ (instructions f.earlyLines).length :=
      (h.filter _).length_le
    have same : instructions f.code = f.code := by simp [code, instructions]
    rw [same, code_eq, List.length_append] at shorter
    have := List.length_pos_iff.mpr late
    omega
  · intro h
    rw [code_eq, h, List.append_nil]
    exact List.filter_sublist.trans earlyLines_sublist

end Function

/-! ## Renamed lines -/

/-- Each identifier becomes one. -/
def Text.Renames (g : Text → Text) : Prop :=
  ∀ id, IsIdent id → IsIdent (g id)

theorem Text.Renames.comp {g g' : Text → Text} (hg : Renames g) (hg' : Renames g') : Renames (g ∘ g') :=
  fun id hid => hg _ (hg' id hid)

theorem Text.renames_id : Renames id :=
  fun _ hid => hid

namespace Line

variable {g g' : Text → Text} {l k : Line}

/-- The second line is the first one with its identifiers renamed, but for blanks at its ends. -/
def RenamedTo (g : Text → Text) (l k : Line) : Prop :=
  k.trim = (l.renameIds g).trim

theorem renamedTo_id (l : Line) : RenamedTo id l l :=
  congrArg Line.trim (renameIds_of_eq fun _ _ => rfl).symm

theorem trim_renameIds_trim (hg : Text.Renames g) (l : Line) : (l.trim.renameIds g).trim = (l.renameIds g).trim := by
  have word : ∀ id ∈ Text.identifiers l.text, Text.IsWord (g id) := fun id hid => (hg id (Text.isIdent_of_mem hid)).isWord
  refine congrArg Line.mk ?_
  show Text.trim (Text.renameIds g (Text.trim l.text)) = Text.trim (Text.renameIds g l.text)
  rw [← Text.trim_renameIds_eq word, Text.trim_trim]

/-- A line renamed twice. -/
theorem RenamedTo.of_renamed (hg : Text.Renames g) (hg' : Text.Renames g') (h : RenamedTo g (l.renameIds g').trim k) :
    RenamedTo (g ∘ g') l k := by
  rw [RenamedTo, trim_renameIds_trim hg, renameIds_renameIds g fun id hid => hg' id (Text.isIdent_of_mem hid)] at h
  exact h

/-- A word that holds no identifier stays, such as an opcode. -/
theorem RenamedTo.mem_words (hg : Text.Renames g) (h : RenamedTo g l k) {w : Text} (hw : w ∈ Text.words l.text)
    (plain : Text.sigil ∉ w) : w ∈ Text.words k.text := by
  have words : Text.words k.text = (Text.words l.text).map (Text.renameIds g) := by
    rw [← words_text_trim, h, words_text_trim]
    exact Text.words_renameIds fun id hid => (hg id (Text.isIdent_of_mem hid)).isWord
  rw [words, ← Text.renameIds_of_no_sigil g plain]
  exact List.mem_map_of_mem hw

end Line

/-! ## Lines with all copies put in -/

/-- The third list has, for each line in turn, the line with its identifiers renamed, or the
    lines of a body in the place of a call, which are expanded in the same way. The number
    counts the calls replaced. -/
inductive Expanded (m : Module) : (Text → Text) → List Line → List Line → Nat → Prop
  | nil {g : Text → Text} : Expanded m g [] [] 0
  | line {g : Text → Text} {l k : Line} {ls last : List Line} {n : Nat} : l.RenamedTo g k →
      Expanded m g ls last n → Expanded m g (l :: ls) (k :: last) n
  | call {g g' h : Text → Text} {l k : Line} {call : Call} {f : Function} {ls body copy last : List Line} {n n' : Nat} :
      Text.Renames g' → l.RenamedTo g' k → k.isCall = true → Call.ofLine k = .ok call →
      Inlining.resolve m call.callee = .ok f → f.body = .ok body → Text.Renames h →
      Expanded m h body copy n → Expanded m g ls last n' → Expanded m g (l :: ls) (copy ++ last) (n + 1 + n')

variable {p : Text} {m : Module} {main : Function} {copied copied' : List Text} {ls ls' last lines : List Line}
  {e : Expansion} {g g' : Text → Text} {n : Nat}

namespace Expanded

theorem refl (m : Module) : ∀ ls, Expanded m id ls ls 0
  | [] => .nil
  | l :: ls => .line l.renamedTo_id (refl m ls)

theorem append_inv : ∀ {ls : List Line} {last : List Line} {n : Nat}, Expanded m g (ls ++ ls') last n →
    ∃ last₁ last₂ n₁ n₂, Expanded m g ls last₁ n₁ ∧ Expanded m g ls' last₂ n₂ ∧ last = last₁ ++ last₂ ∧ n = n₁ + n₂
  | [], last, n, h => ⟨[], last, 0, n, .nil, h, rfl, (Nat.zero_add n).symm⟩
  | l :: ls, _, _, h => by
    cases h with
    | line hl hrest =>
      obtain ⟨last₁, last₂, n₁, n₂, h₁, h₂, rfl, rfl⟩ := append_inv hrest
      exact ⟨_, last₂, n₁, n₂, .line hl h₁, h₂, rfl, rfl⟩
    | call hg' hl hcall hline hres hbody hh hcopy hrest =>
      obtain ⟨last₁, last₂, n₁, n₂, h₁, h₂, rfl, rfl⟩ := append_inv hrest
      exact ⟨_, last₂, _, n₂, .call hg' hl hcall hline hres hbody hh hcopy h₁, h₂, (List.append_assoc ..).symm,
        (Nat.add_assoc ..).symm⟩

/-- Lines renamed before they are expanded. -/
theorem of_renamed (hg : Text.Renames g) (hg' : Text.Renames g') : ∀ {ls : List Line} {last : List Line} {n : Nat},
    Expanded m g (ls.map fun l => (l.renameIds g').trim) last n → Expanded m (g ∘ g') ls last n
  | [], _, _, .nil => .nil
  | _ :: _, _, _, .line hl hrest => .line (hl.of_renamed hg hg') (of_renamed hg hg' hrest)
  | _ :: _, _, _, .call hg'' hl hcall hline hres hbody hh hcopy hrest =>
    .call (hg''.comp hg') (hl.of_renamed hg'' hg') hcall hline hres hbody hh hcopy (of_renamed hg hg' hrest)

end Expanded

/-! ## One pass -/

theorem Function.renames_lineName [KeyOrder] (f : Function) (copy : Nat) : Text.Renames (f.lineName copy) :=
  fun _ => isIdent_lineName

theorem Rename.renames_composed {rs : List Rename} (h : ∀ r ∈ rs, Text.IsIdent r.new) :
    Text.Renames (Rename.composed rs) :=
  fun _ hid => Rename.isIdent_composed h hid

namespace Expands

variable [KeyOrder]

theorem isIdent_new (h : Expands p m copied ls copied' e) : ∀ r ∈ e.renames, Text.IsIdent r.new := by
  intro r hr
  obtain ⟨_, call, f, copy, c, hr⟩ := h.mem_renames hr
  rcases Function.mem_copyRenames hr with ⟨-, -, -, harg⟩ | ⟨value, hvalue, rfl⟩
  · exact Line.isIdent_of_mem_rhsIds (Call.mem_rhsIds c.read harg)
  · obtain ⟨k, -, hid⟩ := Function.mem_ids_of_returnValue hvalue
    exact Inlining.isIdent_nameInCopy (Text.isIdent_of_mem hid)

/-- What the lines of an expansion are expanded to, the lines of main before are. -/
theorem expanded (hg : Text.Renames g) (hg' : Text.Renames g') (h : Expands p m copied ls copied' e)
    (out : Expanded m g (e.lines.map fun l => (l.renameIds g').trim) last n) :
    Expanded m (g ∘ g') ls last (ls.countP Line.isCall + n) := by
  induction h generalizing last n with
  | nil copied =>
    cases out
    exact .nil
  | @keep l ls _ _ e hcall _ ih =>
    rw [List.countP_cons_of_neg (by simp [hcall])]
    cases out with
    | line hl hrest => exact .line (hl.of_renamed hg hg') (ih hrest)
    | call hg'' hl hcall hline hres hbody hh hcopy hrest =>
      have whole := Expanded.call (hg''.comp hg') (hl.of_renamed hg'' hg') hcall hline hres hbody hh hcopy (ih hrest)
      rwa [Nat.add_left_comm] at whole
  | @copy l ls copied _ _ call f hcall hline hres hcopy _ ih =>
    rw [List.countP_cons_of_pos hcall]
    rw [List.map_append] at out
    obtain ⟨here, rest, n₁, n₂, hhere, hrest, rfl, rfl⟩ := out.append_inv
    have names := f.renames_lineName (copied.count call.callee + 1)
    have twice : (f.copyLines (copied.count call.callee + 1)).map (fun l => (l.renameIds g').trim) =
        f.bodyLines.map fun l => (l.renameIds (g' ∘ f.lineName (copied.count call.callee + 1))).trim := by
      rw [Function.copyLines_eq_map, List.map_map]
      refine List.map_congr_left fun k _ => congrArg Line.trim ?_
      exact Line.renameIds_renameIds g' fun id hid => names id (Text.isIdent_of_mem hid)
    rw [twice] at hhere
    have body : f.body = .ok f.bodyLines :=
      Function.body_eq_ok.mpr ⟨⟨_, (Module.plain_of_resolve hres).2⟩, hcopy.ends, rfl⟩
    have whole := Expanded.call Text.renames_id l.renamedTo_id hcall hline hres body (hg.comp (hg'.comp names))
      (hhere.of_renamed hg (hg'.comp names)) (ih hrest)
    rwa [show n₁ + 1 + (ls.countP Line.isCall + n₂) = ls.countP Line.isCall + 1 + (n₁ + n₂) by omega] at whole

end Expands

/-- What the lines are expanded to, the lines at the start are, with as many calls replaced
    before. -/
def ExpandedFrom (m : Module) (start : List Line) (n : Nat) (ls : List Line) : Prop :=
  ∃ g', Text.Renames g' ∧
    ∀ g last k, Text.Renames g → Expanded m g ls last k → Expanded m (g ∘ g') start last (n + k)

theorem ExpandedFrom.refl (m : Module) (ls : List Line) : ExpandedFrom m ls 0 ls :=
  ⟨id, Text.renames_id, fun g last k _ h => by rwa [Nat.zero_add]⟩

theorem ExpandedFrom.trans {start ls lines : List Line} {k : Nat} (before : ExpandedFrom m start n ls)
    (after : ExpandedFrom m ls k lines) : ExpandedFrom m start (n + k) lines := by
  obtain ⟨g₁, hg₁, before⟩ := before
  obtain ⟨g₂, hg₂, after⟩ := after
  refine ⟨g₂ ∘ g₁, hg₂.comp hg₁, fun g last k hg h => ?_⟩
  rw [Nat.add_assoc]
  exact before (g ∘ g₂) last _ (hg.comp hg₂) (after g last k hg h)

theorem expandedFrom_of_pass [KeyOrder] {i : Inliner} (hpass : (i.pass m ⟨ls⟩).result = .ok lines) :
    ExpandedFrom m ls (ls.countP Line.isCall) lines := by
  obtain ⟨copied', e, he, rfl⟩ := exists_expands_of_pass hpass
  have news : ∀ r ∈ e.told.renames, Text.IsIdent r.new := fun r hr => he.isIdent_new r (List.mem_filter.mp hr).1
  have renames := Rename.renames_composed news
  refine ⟨_, renames, fun g last k hg out => ?_⟩
  rw [Rename.applyAll_eq_map news, List.map_map] at out
  exact he.expanded hg renames out

/-! ## All passes -/

/-- The main that inlining leaves is expanded from the one at the start. If inlining succeeds,
    every call is replaced, and as many as it counts. A copy is made of the body of a function,
    and that has all code of the function just if none is behind the first return. -/
theorem inlineMain_expands [KeyOrder] (hmain : m.main? = some main) (i : Inliner) :
    (∃ g last n, (i.inlineMain m).module = m.setMain last ∧ Text.Renames g ∧ Expanded m g main.lines last n ∧
      ∀ n', (i.inlineMain m).replaced = .ok n' → n' = n ∧ ∀ l ∈ last, l.isCall = false) ∧
    ∀ (f : Function) body, f.body = .ok body → (f.code.Sublist body ↔ f.lateCode = []) := by
  constructor
  · obtain ⟨last, n, hlast, ⟨g, hg, out⟩, ends⟩ := inlineMain_counts (P := ExpandedFrom m main.lines) hmain
      (fun i n ls lines before hpass => before.trans (expandedFrom_of_pass hpass)) (.refl m main.lines) i
    exact ⟨_, last, n, hlast, hg, out id last 0 Text.renames_id (.refl m last), ends⟩
  · intro f body hbody
    obtain ⟨-, -, rfl⟩ := Function.body_eq_ok.mp hbody
    exact Function.code_sublist_iff

/-- It returns its second argument if that is larger than the first, and their difference if
    it is not. -/
def pickingFunction : Function :=
  ⟨["%pick = OpFunction %uint None %fn", "%x = OpFunctionParameter %uint", "%y = OpFunctionParameter %uint",
    "%start = OpLabel", "%c = OpULessThan %bool %x %y", "OpSelectionMerge %rest None",
    "OpBranchConditional %c %early %rest", "%early = OpLabel", "OpReturnValue %y", "%rest = OpLabel",
    "%d = OpISub %uint %x %y", "OpReturnValue %d", "OpFunctionEnd"].map fun s => ⟨s.toList⟩⟩

def pickingModule : Module :=
  ⟨[⟨.function, pickingFunction.lines⟩,
    ⟨.main, ["%main = OpFunction %void None %fv", "%lm = OpLabel", "%a = OpLoad %uint %in",
      "%r = OpFunctionCall %uint %pick %a %a", "OpStore %out %r", "OpReturn", "OpFunctionEnd"].map fun s => ⟨s.toList⟩⟩]⟩

attribute [local instance] KeyOrder.listed

def pickingRun : Inlined :=
  (Inliner.ofPrefix "rs_linker_".toList).inlineMain pickingModule

/-- The call is replaced, and the subtraction is not in main then. -/
theorem pickingRun_eq :
    Inlining.resolve pickingModule "%pick".toList = .ok pickingFunction ∧ pickingRun.replaced = .ok 1 ∧
      pickingFunction.body.toOption.isSome = true ∧ ⟨"%d = OpISub %uint %x %y".toList⟩ ∈ pickingFunction.lateCode ∧
      pickingRun.module.main?.any fun main => main.lines.all fun l => "OpISub".toList ∉ Text.words l.text := by
  decide +kernel

/-- The one call is replaced by a body that has not all code of the callee. -/
theorem inlineMain_expands_picking :
    (∃ main g last, pickingModule.main? = some main ∧ pickingRun.module = pickingModule.setMain last ∧ Text.Renames g ∧
      Expanded pickingModule g main.lines last 1 ∧ ∀ l ∈ last, l.isCall = false) ∧
    Inlining.resolve pickingModule "%pick".toList = .ok pickingFunction ∧
    ∃ body, pickingFunction.body = .ok body ∧ ¬ pickingFunction.code.Sublist body := by
  obtain ⟨resolves, replaced, hbody, late, -⟩ := pickingRun_eq
  obtain ⟨⟨g, last, n, hlast, hg, out, ends⟩, whole⟩ :=
    inlineMain_expands (rfl : pickingModule.main? = some _) (.ofPrefix "rs_linker_".toList)
  obtain ⟨rfl, clean⟩ := ends 1 replaced
  obtain ⟨body, hbody⟩ := Option.isSome_iff_exists.mp hbody
  have hbody := mem_toOption.mp hbody
  exact ⟨⟨_, g, last, rfl, hlast, hg, out, clean⟩, resolves, body, hbody,
    fun h => List.ne_nil_of_mem late ((whole _ _ hbody).mp h)⟩

/-- The callee returns early, and the code behind that is on no line of the main that inlining
    leaves, however its identifiers are renamed. -/
theorem inlineMain_cuts_callee :
    ∃ late main, Inlining.resolve pickingModule "%pick".toList = .ok pickingFunction ∧
      late ∈ pickingFunction.code ∧ late.isCall = false ∧ pickingRun.replaced = .ok 1 ∧
      pickingRun.module.main? = some main ∧ ∀ g, Text.Renames g → ∀ l ∈ main.lines, ¬ late.RenamedTo g l := by
  obtain ⟨resolves, replaced, -, late, gone⟩ := pickingRun_eq
  obtain ⟨main, hmain, hall⟩ := (Option.any_eq_true ..).mp gone
  have code : ⟨"%d = OpISub %uint %x %y".toList⟩ ∈ pickingFunction.code := by
    rw [Function.code_eq]
    exact List.mem_append_right _ late
  refine ⟨⟨"%d = OpISub %uint %x %y".toList⟩, main, resolves, code, by decide +kernel, replaced, hmain,
    fun g hg l hl h => ?_⟩
  have kept : "OpISub".toList ∈ Text.words l.text := h.mem_words hg (by decide +kernel) (by decide)
  exact of_decide_eq_true (List.all_eq_true.mp hall l hl) kept

end SpirvLink
