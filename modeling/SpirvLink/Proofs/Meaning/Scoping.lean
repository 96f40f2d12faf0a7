/-
  SpirvLink.Proofs.Meaning.Scoping — functions that use what is in scope.

  A line of a body may use global identifiers, parameters and what earlier lines of the body
  give, and a function is used by calls alone (`ScopedFrom`). In a `WellScoped` module no
  function uses what belongs to another (`WellScoped.apart`), no call takes its own result or
  a later one (`WellScoped.ready`), and a function's name belongs to no function
  (`WellScoped.not_local`).
-/

import SpirvLink.Proofs.Inlining.Hygiene
import SpirvLink.Proofs.Meaning.StraightLine

namespace SpirvLink

open Semantics (IsGlobal)

/-! ## What lines use and give -/

namespace Line

def callee? (l : Line) : Option Text :=
  if l.isCall then l.operandIds[1]? else none

/-- What the line uses as a value or a type; a callee is neither. -/
def uses (l : Line) : List Text :=
  if l.isCall then l.operandIds.eraseIdx 1 else l.operandIds

variable {l : Line} {call : Call} {id : Text}

theorem rhsIds_of_defined (h : l.defined?.isSome = true) : l.rhsIds = l.operandIds := by
  rw [defined?, Option.isSome_map] at h
  obtain ⟨halves, hs⟩ := Option.isSome_iff_exists.mp h
  rw [rhsIds, operandIds, rhs?, hs]
  rfl

theorem operandIds_of_call (hc : Call.ofLine l = .ok call) :
    l.operandIds = call.returnType :: call.callee :: call.arguments := by
  obtain ⟨hd, hr⟩ := Call.ofLine_eq_ok.mp hc
  rw [← rhsIds_of_defined (by rw [hd]; rfl), hr]

theorem callee?_of_call (hl : l.isCall = true) (hc : Call.ofLine l = .ok call) : l.callee? = some call.callee := by
  rw [callee?, if_pos hl, operandIds_of_call hc]
  rfl

theorem uses_of_call (hl : l.isCall = true) (hc : Call.ofLine l = .ok call) :
    l.uses = call.returnType :: call.arguments := by
  rw [uses, if_pos hl, operandIds_of_call hc]
  rfl

theorem uses_of_not_call (hl : l.isCall = false) : l.uses = l.operandIds :=
  if_neg (by simp [hl])

theorem callee?_of_not_call (hl : l.isCall = false) : l.callee? = none :=
  if_neg (by simp [hl])

/-- An operand is used, or it is the callee. -/
theorem mem_operandIds (h : id ∈ l.operandIds) : id ∈ l.uses ∨ l.callee? = some id := by
  cases hl : l.isCall with
  | false => exact Or.inl (by rwa [uses_of_not_call hl])
  | true =>
    rw [uses, callee?, if_pos hl, if_pos hl]
    generalize l.operandIds = ids at h ⊢
    rcases ids with _ | ⟨a, _ | ⟨b, rest⟩⟩
    · cases h
    · exact Or.inl h
    · rcases List.mem_cons.mp h with rfl | h
      · exact Or.inl (List.mem_cons_self ..)
      · rcases List.mem_cons.mp h with rfl | h
        · exact Or.inr rfl
        · exact Or.inl (List.mem_cons_of_mem _ h)

theorem arguments_subset_uses : l.arguments ⊆ l.uses := by
  intro id hid
  unfold arguments at hid
  split at hid
  · next hl =>
    cases hd : l.defined? with
    | none =>
      rw [defined?, Option.map_eq_none_iff] at hd
      rw [rhsIds, rhs?, hd] at hid
      simp at hid
    | some d =>
      rw [rhsIds_of_defined (by rw [hd]; rfl)] at hid
      rw [uses, if_pos hl]
      generalize l.operandIds = ids at hid ⊢
      rcases ids with _ | ⟨a, _ | ⟨b, rest⟩⟩
      · cases hid
      · cases hid
      · exact List.mem_cons_of_mem _ hid
  · cases hid

end Line

namespace Module

/-- A function of the module has this name. -/
def Named (m : Module) (id : Text) : Prop :=
  ∃ f ∈ m.functions, f.isNamed id = true

instance (m : Module) (id : Text) : Decidable (m.Named id) :=
  inferInstanceAs (Decidable (∃ _ ∈ _, _))

/-- The line calls a function that returns no value. -/
def callsVoid (m : Module) (l : Line) : Bool :=
  (l.callee?.bind (Semantics.callee? m)).any fun f => f.returnValue?.isNone

/-- What later lines may use of the line. A call gives nothing if no value is returned. -/
def gives (m : Module) (l : Line) : Option Text :=
  if m.callsVoid l then none else l.defined?

/-- Each line uses global identifiers and those in scope, and gives to the scope of the
    lines after it. Functions are called and not used. -/
def ScopedFrom (m : Module) : List Text → List Line → Prop
  | _, [] => True
  | scope, l :: ls =>
    (∀ id ∈ l.uses, IsGlobal m id ∨ id ∈ scope) ∧
      (∀ id ∈ l.callee?, m.Named id ∨ IsGlobal m id ∨ id ∈ scope) ∧
        m.ScopedFrom (scope ++ (m.gives l).toList) ls

instance decidableScopedFrom (m : Module) : ∀ scope ls, Decidable (m.ScopedFrom scope ls)
  | _, [] => inferInstanceAs (Decidable True)
  | scope, l :: ls =>
    have := decidableScopedFrom m (scope ++ (m.gives l).toList) ls
    inferInstanceAs (Decidable (_ ∧ _ ∧ _))

/-- A body uses its parameters and what its earlier lines give; the lines around it use
    global identifiers. -/
structure Scoped (m : Module) (f : Function) : Prop where
  frame : ∀ l ∈ f.lines, l.isFrame = true → ∀ id ∈ l.operandIds, IsGlobal m id
  body : m.ScopedFrom f.parameterIds f.afterLabel

instance (m : Module) (f : Function) : Decidable (m.Scoped f) :=
  decidable_of_iff (_ ∧ _) ⟨fun h => ⟨h.1, h.2⟩, fun h => ⟨h.frame, h.body⟩⟩

/-- Every line is well spaced, each identifier is defined by at most one line, no identifier
    looks like a name in a later copy, and every function is straight-line and scoped. -/
structure WellScoped (m : Module) : Prop where
  spaced : ∀ l ∈ m.lines, l.WellSpaced
  once : m.DefinesOnce
  unsuffixed : ∀ l ∈ m.lines, ∀ id ∈ l.ids, Inlining.isCopyName id = false
  atomic : ∀ f ∈ m.functions, ∀ l ∈ f.lines, l.Atomic
  straight : ∀ f ∈ m.functions, f.StraightLine
  inScope : ∀ f ∈ m.functions, m.Scoped f

instance (m : Module) : Decidable m.WellScoped :=
  decidable_of_iff (_ ∧ _ ∧ _ ∧ _ ∧ _ ∧ _) ⟨fun h => ⟨h.1, h.2.1, h.2.2.1, h.2.2.2.1, h.2.2.2.2.1, h.2.2.2.2.2⟩,
    fun h => ⟨h.spaced, h.once, h.unsuffixed, h.atomic, h.straight, h.inScope⟩⟩

theorem nestedCalls_wellScoped : nestedCalls.WellScoped := by decide +kernel

variable {m : Module} {f : Function} {scope : List Text} {l : Line} {ls ls' : List Line} {id : Text}

/-! ## Scopes -/

theorem gives_eq_some (h : m.gives l = some id) : l.defined? = some id := by
  unfold gives at h
  split at h
  · cases h
  · exact h

theorem scopedFrom_append : m.ScopedFrom scope (ls ++ ls') ↔
    m.ScopedFrom scope ls ∧ m.ScopedFrom (scope ++ ls.filterMap m.gives) ls' := by
  induction ls generalizing scope with
  | nil => simp [ScopedFrom]
  | cons l ls ih =>
    have next : scope ++ (l :: ls).filterMap m.gives = scope ++ (m.gives l).toList ++ ls.filterMap m.gives := by
      cases hg : m.gives l <;> simp [hg]
    rw [List.cons_append, ScopedFrom, ScopedFrom, ih, next]
    tauto

/-- The scope of a line holds nothing but the first scope and what the lines define. -/
theorem ScopedFrom.exists_scope (h : m.ScopedFrom scope ls) (hl : l ∈ ls) : ∃ inner,
    inner ⊆ scope ++ ls.filterMap Line.defined? ∧ (∀ id ∈ l.uses, IsGlobal m id ∨ id ∈ inner) ∧
      ∀ id ∈ l.callee?, m.Named id ∨ IsGlobal m id ∨ id ∈ inner := by
  induction ls generalizing scope with
  | nil => cases hl
  | cons k ls ih =>
    obtain ⟨uses, callee, rest⟩ := h
    rcases List.mem_cons.mp hl with rfl | hl
    · exact ⟨scope, List.subset_append_left .., uses, callee⟩
    · obtain ⟨inner, hinner, huses, hcallee⟩ := ih rest hl
      refine ⟨inner, fun id hid => ?_, huses, hcallee⟩
      rcases List.mem_append.mp (hinner hid) with hs | hd
      · rcases List.mem_append.mp hs with hs | hs
        · exact List.mem_append_left _ hs
        · have hd : k.defined? = some id := gives_eq_some (m := m) (by simpa using hs)
          exact List.mem_append_right _ (List.mem_filterMap.mpr ⟨k, List.mem_cons_self .., hd⟩)
      · exact List.mem_append_right _ (((List.sublist_cons_self k ls).filterMap _).subset hd)

/-- No call takes its own result or a later one: neither is in its scope. -/
theorem ScopedFrom.ready (h : m.ScopedFrom scope ls) (once : (ls.filterMap Line.defined?).Nodup)
    (fresh : ∀ d ∈ ls.filterMap Line.defined?, ¬ IsGlobal m d ∧ d ∉ scope) : ArgumentsReady ls := by
  induction ls generalizing scope with
  | nil => exact ⟨fun l hl => (by cases hl), .nil⟩
  | cons l ls ih =>
    obtain ⟨uses, -, rest⟩ := h
    have free : ∀ k ∈ l :: ls, ∀ r ∈ k.result?, id r ∉ l.arguments.map id := by
      intro k hk r hr hmem
      rw [List.map_id] at hmem
      have hd : r ∈ (l :: ls).filterMap Line.defined? := List.mem_filterMap.mpr ⟨k, hk, (Line.result?_eq_some hr).2⟩
      exact (uses r (Line.arguments_subset_uses hmem)).elim (fresh r hd).1 (fresh r hd).2
    have tail : ArgumentsReady ls := by
      refine ih rest (once.sublist ((List.sublist_cons_self l ls).filterMap _)) fun d hd => ?_
      obtain ⟨hg, hs⟩ := fresh d (((List.sublist_cons_self l ls).filterMap _).subset hd)
      refine ⟨hg, fun hmem => ?_⟩
      rcases List.mem_append.mp hmem with hmem | hmem
      · exact hs hmem
      · rw [List.filterMap_cons_some (gives_eq_some (by simpa using hmem)), List.nodup_cons] at once
        exact once.1 hd
    refine ⟨fun k hk => ?_, List.pairwise_cons.mpr ⟨fun k hk => free k (List.mem_cons_of_mem l hk), tail.2⟩⟩
    rcases List.mem_cons.mp hk with rfl | hk
    · exact free k (List.mem_cons_self ..)
    · exact tail.1 k hk

/-! ## Names of functions -/

theorem Named.exists_name (h : m.Named id) : ∃ f ∈ m.functions, f.name = .ok id := by
  obtain ⟨f, hf, hn⟩ := h
  exact ⟨f, hf, Function.isNamed_iff.mp hn⟩

theorem named_of_plain (hf : f ∈ m.plainFunctions) (hn : f.name = .ok id) : m.Named id :=
  ⟨f, plain_mem_functions hf, Function.isNamed_iff.mpr hn⟩

end Module

/-- What belongs to a function is defined after its first line. -/
theorem Block.localIds_subset {b : Block} {name : Text} (hn : (⟨b.lines⟩ : Function).name = .ok name) :
    b.localIds ⊆ b.lines.tail.filterMap Line.defined? := by
  obtain ⟨kind, lines⟩ := b
  obtain ⟨first, rest, hlines, -, ho⟩ := Function.name_eq_ok.mp hn
  obtain rfl : lines = first :: rest := hlines
  rw [Line.hasOpcode_iff] at ho
  have after : (⟨first :: rest⟩ : Function).afterLabel ⊆ rest := by
    have label : first.hasOpcode Opcode.label = false := Line.hasOpcode_of_ne ho (by decide)
    show ((first :: rest).dropWhile fun l => !l.hasOpcode Opcode.label).tail ⊆ rest
    rw [List.dropWhile_cons_of_pos (by rw [label]; rfl)]
    exact fun l hl => (List.dropWhile_sublist _).subset (List.mem_of_mem_tail hl)
  cases kind with
  | function =>
    intro id hid
    rcases List.mem_append.mp (show id ∈ (⟨first :: rest⟩ : Function).owned from hid) with hid | hid
    · have param : first.hasOpcode Opcode.functionParameter = false := Line.hasOpcode_of_ne ho (by decide)
      rw [Function.parameterIds, Function.parameterLines, List.filter_cons_of_neg (by simp [param])] at hid
      exact ((List.filter_sublist).filterMap _).subset hid
    · obtain ⟨l, hl, hd⟩ := List.mem_filterMap.mp hid
      exact List.mem_filterMap.mpr ⟨l, after ((List.takeWhile_sublist _).subset hl), hd⟩
  | main => exact List.Subset.refl _
  | _ => exact List.nil_subset _

namespace Module.WellScoped

variable {m : Module} {f : Function} {l : Line} {id : Text} {copied : List Text}

theorem named (w : m.WellScoped) (hf : f ∈ m.functions) : ∃ name, f.name = .ok name := by
  obtain ⟨q, hq, rfl, hd, -⟩ := (w.straight f hf).parts
  obtain ⟨name, hname⟩ := Option.isSome_iff_exists.mp hd
  exact ⟨name, Function.name_eq_ok.mpr ⟨q.first, _, rfl, hname, Line.hasOpcode_iff.mpr hq.first⟩⟩

theorem tidy (w : m.WellScoped) : m.Tidy := by
  refine ⟨w.spaced, w.once, w.unsuffixed, fun f hf => ?_⟩
  obtain ⟨q, hq, rfl, -⟩ := (w.straight f (plain_mem_functions hf)).parts
  exact hq.parametersFirst

/-- What a function defines after its first line is no function's name. -/
theorem not_named_of_tail (w : m.WellScoped) (hf : f ∈ m.functions) (hid : id ∈ f.lines.tail.filterMap Line.defined?) :
    ¬ m.Named id := by
  intro h
  obtain ⟨g, hg, hn⟩ := h.exists_name
  obtain ⟨first, rest, hlines, hd, -⟩ := Function.name_eq_ok.mp hn
  obtain ⟨b, hb, -, hbl⟩ := exists_block hf
  obtain ⟨c, hc, -, hcl⟩ := exists_block hg
  have inB : id ∈ b.lines.filterMap Line.defined? := hbl ▸ ((List.tail_sublist f.lines).filterMap _).subset hid
  have inC : id ∈ c.lines.filterMap Line.defined? := by
    rw [hcl, hlines, List.filterMap_cons_some hd]
    exact List.mem_cons_self ..
  have same : f.lines = first :: rest := by
    rw [← hlines, ← hbl, ← hcl, w.once.block_eq hb hc inB inC]
  have once := w.once.block_nodup hb
  rw [hbl, same, List.filterMap_cons_some hd, List.nodup_cons] at once
  rw [same] at hid
  exact once.1 hid

theorem not_named_of_global (hid : IsGlobal m id) : ¬ m.Named id := by
  intro h
  obtain ⟨f, hf, hn⟩ := h.exists_name
  obtain ⟨first, rest, hlines, hd, -⟩ := Function.name_eq_ok.mp hn
  refine hid.2 f hf ?_
  rw [hlines, List.filterMap_cons_some hd]
  exact List.mem_cons_self ..

/-- The name of a function belongs to no function. -/
theorem not_local (w : m.WellScoped) (h : m.Named id) : ¬ m.IsLocal id := by
  rintro ⟨b, hb, hid⟩
  have hf := mem_functions hb (Block.hasBody_of_localIds hid)
  obtain ⟨name, hn⟩ := w.named hf
  exact w.not_named_of_tail hf (Block.localIds_subset hn hid) h

theorem not_owned (w : m.WellScoped) (h : m.Named id) (hf : f ∈ m.plainFunctions) : id ∉ f.owned :=
  fun ho => w.not_local h ⟨_, mem_plainFunctions.mp hf, ho⟩

theorem named_unsuffixed (w : m.WellScoped) (h : m.Named id) : Inlining.isCopyName id = false := by
  obtain ⟨f, hf, hn⟩ := h.exists_name
  obtain ⟨first, rest, hlines, hd, -⟩ := Function.name_eq_ok.mp hn
  have hline : first ∈ m.lines := mem_lines_of_function hf (by rw [hlines]; exact List.mem_cons_self ..)
  exact w.unsuffixed first hline id ((w.spaced first hline).mem_ids_of_defined hd)

/-- What a line of a function uses is global, or the function defines it after its first
    line; a callee can also be the name of a function. -/
theorem operand (w : m.WellScoped) (hf : f ∈ m.functions) (hl : l ∈ f.lines) :
    (∀ id ∈ l.uses, IsGlobal m id ∨ id ∈ f.lines.tail.filterMap Line.defined?) ∧
      ∀ id ∈ l.callee?, m.Named id ∨ IsGlobal m id ∨ id ∈ f.lines.tail.filterMap Line.defined? := by
  obtain ⟨q, hq, rfl, -⟩ := (w.straight f hf).parts
  obtain ⟨hopening, hlabel, -⟩ := hq.isCall_eq_false
  have frame : ∀ k ∈ q.function.lines, k.isFrame = true → k.isCall = false →
      (∀ id ∈ k.uses, IsGlobal m id ∨ id ∈ q.function.lines.tail.filterMap Line.defined?) ∧
        ∀ id ∈ k.callee?, m.Named id ∨ IsGlobal m id ∨ id ∈ q.function.lines.tail.filterMap Line.defined? := by
    intro k hk hframe hcall
    rw [Line.uses_of_not_call hcall, Line.callee?_of_not_call hcall]
    exact ⟨fun id hid => Or.inl ((w.inScope _ hf).frame k hk hframe id hid), fun id hid => (by cases hid)⟩
  rcases List.mem_append.mp hl with hl' | hl'
  · refine frame l hl ?_ (hopening l hl')
    rcases List.mem_cons.mp hl' with rfl | hl'
    · rw [Line.isFrame, hq.first]
      decide
    · rw [Line.isFrame, hq.parameters l hl']
      decide
  · rcases List.mem_cons.mp hl' with rfl | hl'
    · refine frame _ hl ?_ hlabel
      rw [Line.isFrame, hq.label]
      decide
    · rw [← hq.afterLabel_eq] at hl'
      obtain ⟨inner, hinner, huses, hcallee⟩ := (w.inScope _ hf).body.exists_scope hl'
      have tail : inner ⊆ q.function.lines.tail.filterMap Line.defined? := by
        have parts : q.parameters ++ q.function.afterLabel ⊆ q.function.lines.tail := by
          rw [hq.afterLabel_eq]
          refine ((List.Sublist.refl _).append ?_).subset
          exact List.sublist_cons_self ..
        intro id hid
        have hid := hinner hid
        rw [hq.parameterIds_eq, ← List.filterMap_append] at hid
        obtain ⟨k, hk, hd⟩ := List.mem_filterMap.mp hid
        exact List.mem_filterMap.mpr ⟨k, parts hk, hd⟩
      exact ⟨fun id hid => (huses id hid).imp_right (tail ·), fun id hid => (hcallee id hid).imp_right (Or.imp_right (tail ·))⟩

/-- Functions are called and not used. -/
theorem not_named_of_uses (w : m.WellScoped) (hf : f ∈ m.functions) (hl : l ∈ f.lines) (hid : id ∈ l.uses) :
    ¬ m.Named id := by
  rcases (w.operand hf hl).1 id hid with hg | hd
  · exact not_named_of_global hg
  · exact w.not_named_of_tail hf hd

/-- No function uses what belongs to another one. -/
theorem apart (w : m.WellScoped) : m.Apart := by
  intro b hb c hc hbody hne id hid l hl hop
  have defined := w.tidy.localIds_defined hb hid
  have hbf := mem_functions hb (Block.hasBody_of_localIds hid)
  have other : id ∉ c.lines.tail.filterMap Line.defined? := fun hd =>
    hne (w.once.block_eq hb hc defined (((List.tail_sublist c.lines).filterMap _).subset hd))
  obtain ⟨huses, hcallee⟩ := w.operand (mem_functions hc hbody) hl
  rcases Line.mem_operandIds hop with hop | hop
  · exact (huses id hop).elim (fun hg => hg.2 _ hbf defined) other
  · rcases hcallee id hop with hn | hg | hd
    · exact w.not_local hn ⟨b, hb, hid⟩
    · exact hg.2 _ hbf defined
    · exact other hd

/-- No call takes its own result or a later one. -/
theorem ready (w : m.WellScoped) (hf : f ∈ m.functions) : ArgumentsReady f.lines := by
  obtain ⟨b, hb, -, hbl⟩ := exists_block hf
  have once : (f.lines.filterMap Line.defined?).Nodup := hbl ▸ w.once.block_nodup hb
  obtain ⟨q, hq, rfl, -⟩ := (w.straight f hf).parts
  obtain ⟨hopening, hlabel, -⟩ := hq.isCall_eq_false
  have quiet : ∀ l ∈ q.first :: q.parameters ++ [q.label], l.isCall = false := by
    intro l hl
    rcases List.mem_append.mp hl with hl | hl
    · exact hopening l hl
    · rwa [List.mem_singleton.mp hl]
  have lines : q.function.lines = (q.first :: q.parameters ++ [q.label]) ++ q.function.afterLabel := by
    rw [hq.afterLabel_eq]
    simp [Parts.function]
  rw [lines, List.filterMap_append] at once
  obtain ⟨-, onceAfter, apart⟩ := List.nodup_append.mp once
  have silent : ∀ l ∈ q.first :: q.parameters ++ [q.label], l.arguments = [] ∧ l.result? = none :=
    fun l hl => ⟨if_neg (by simp [quiet l hl]), Line.result?_of_not_call (quiet l hl)⟩
  rw [lines]
  refine readyUnder_append.mpr ⟨⟨fun l hl r hr => ?_, List.pairwise_of_forall_mem_list fun l hl k hk r hr => ?_⟩, ?_, ?_⟩
  · rw [(silent l hl).2] at hr
    cases hr
  · rw [(silent k hk).2] at hr
    cases hr
  · refine (w.inScope _ hf).body.ready onceAfter fun d hd => ⟨fun hg => hg.2 _ hf ?_, fun hs => ?_⟩
    · exact (Function.afterLabel_sublist.filterMap _).subset hd
    · rw [hq.parameterIds_eq] at hs
      obtain ⟨k, hk, hkd⟩ := List.mem_filterMap.mp hs
      have hk : k ∈ q.first :: q.parameters ++ [q.label] := List.mem_append_left _ (List.mem_cons_of_mem _ hk)
      exact apart d (List.mem_filterMap.mpr ⟨k, hk, hkd⟩) d hd rfl
  · intro l hl k hk r hr
    rw [(silent l hl).1]
    exact List.not_mem_nil

end Module.WellScoped

end SpirvLink
