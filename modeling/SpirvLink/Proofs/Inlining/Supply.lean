/-
  SpirvLink.Proofs.Inlining.Supply — inlining leaves nothing without its definition.

  Lines are supplied if all that they use, the callees apart, is known from outside or given
  by one of them; a call of a function that returns no value gives nothing. If main and the
  bodies are supplied, so is main after a pass (`Supplied.pass`): the copies supply
  themselves, and what a pass renames is given afterwards by what it is renamed to. At the
  end main defines all that it uses and does not know from outside (`Runs.supplied`).
-/

import SpirvLink.Proofs.Inlining.SingleAssignment
import SpirvLink.Proofs.Inlining.Unfolding
import SpirvLink.Proofs.Meaning.Scoping

namespace SpirvLink

/-! ## What lines take over into a copy -/

namespace Line

variable {l : Line} {g : Text → Text}

/-- What is still used once the line is replaced, if it is a call: its arguments take the
    places of parameters, and its type and callee go. -/
def carried (l : Line) : List Text :=
  if l.isCall then l.arguments else l.operandIds

theorem carried_of_not_call (hl : l.isCall = false) : l.carried = l.operandIds :=
  if_neg (by simp [hl])

theorem carried_of_call {call : Call} (hl : l.isCall = true) (hc : Call.ofLine l = .ok call) : l.carried = call.arguments :=
  (if_pos hl).trans (arguments_of_call hl hc)

theorem carried_renameIds (hl : l.WellSpaced) (hg : ∀ id ∈ l.ids, Text.IsPlainIdent (g id)) :
    (l.renameIds g).carried = l.carried.map g := by
  rw [carried, carried, hl.isCall_renameIds hg, arguments_renameIds hl hg, hl.operandIds_renameIds hg]
  split <;> rfl

end Line

namespace Module

variable {m : Module} {known : List Text} {ls ls' : List Line} {l : Line} {g : Text → Text} {id : Text}

theorem gives_of_not_call (hl : l.isCall = false) : m.gives l = l.defined? := by
  rw [gives, callsVoid, Line.callee?_of_not_call hl]
  rfl

/-- A call gives its result if the function called returns a value. -/
theorem gives_of_call {call : Call} {f : Function} (hl : l.isCall = true) (hc : Call.ofLine l = .ok call)
    (hres : Inlining.resolve m call.callee = .ok f) (h : m.gives l = some id) :
    f.returnValue?.isSome = true ∧ id = call.result := by
  have void : m.callsVoid l = f.returnValue?.isNone := by
    rw [callsVoid, Line.callee?_of_call hl hc, Option.bind_some, Semantics.callee?_of_resolve hres]
    rfl
  unfold gives at h
  rw [void] at h
  cases hv : f.returnValue? with
  | none => simp [hv] at h
  | some v =>
    rw [hv, (Call.ofLine_eq_ok.mp hc).1] at h
    exact ⟨rfl, (Option.some.inj h).symm⟩

/-- A renaming that keeps the callee renames what a line gives. -/
theorem gives_renameIds (hl : l.WellSpaced) (hg : ∀ id ∈ l.ids, Text.IsPlainIdent (g id))
    (hcall : l.isCall = true → ∃ call, Call.ofLine l = .ok call ∧ g call.callee = call.callee) :
    m.gives (l.renameIds g) = (m.gives l).map g := by
  cases hl' : l.isCall with
  | false => rw [gives_of_not_call hl', gives_of_not_call ((hl.isCall_renameIds hg).trans hl'), hl.defined?_renameIds hg]
  | true =>
    obtain ⟨call, hc, hcallee⟩ := hcall hl'
    have same : (l.renameIds g).callee? = l.callee? := by
      rw [Line.callee?_of_call hl' hc, Line.callee?_of_call ((hl.isCall_renameIds hg).trans hl') (call_renameIds hl hg hc), hcallee]
    rw [gives, gives, callsVoid, callsVoid, same, hl.defined?_renameIds hg]
    split <;> rfl

/-- The identifier is known, or one of the lines gives it. -/
def Provides (m : Module) (known : List Text) (ls : List Line) (id : Text) : Prop :=
  id ∈ known ∨ id ∈ ls.filterMap m.gives

instance (m : Module) (known : List Text) (ls : List Line) (id : Text) : Decidable (m.Provides known ls id) :=
  inferInstanceAs (Decidable (_ ∨ _))

theorem Provides.defined (h : m.Provides known ls id) : id ∈ known ∨ id ∈ ls.filterMap Line.defined? := by
  refine h.imp_right fun hid => ?_
  obtain ⟨l, hl, hg⟩ := List.mem_filterMap.mp hid
  exact List.mem_filterMap.mpr ⟨l, hl, gives_eq_some hg⟩

/-- All that the lines use is known, or one of them gives it. -/
def Supplied (m : Module) (known : List Text) (ls : List Line) : Prop :=
  ∀ l ∈ ls, ∀ id ∈ l.carried, m.Provides known ls id

instance (m : Module) (known : List Text) (ls : List Line) : Decidable (m.Supplied known ls) :=
  inferInstanceAs (Decidable (∀ _ ∈ _, _))

/-- The body of the function and the value that it returns are supplied by the parameters
    and what is known outside of functions. -/
structure SuppliesBody (m : Module) (known : List Text) (f : Function) : Prop where
  body : m.Supplied (known ++ f.parameterIds) f.bodyLines
  value : ∀ id ∈ f.returnValue?, m.Provides (known ++ f.parameterIds) f.bodyLines id

instance (m : Module) (known : List Text) (f : Function) : Decidable (m.SuppliesBody known f) :=
  decidable_of_iff (_ ∧ _) ⟨fun h => ⟨h.1, h.2⟩, fun h => ⟨h.body, h.value⟩⟩

/-- What is known outside of the functions: they do not define it, and no copy makes it. -/
def Outside (m : Module) (known : List Text) : Prop :=
  ∀ id ∈ known, Inlining.isCopyName id = false ∧ id ∉ m.lines.filterMap Line.defined?

instance (m : Module) (known : List Text) : Decidable (m.Outside known) :=
  inferInstanceAs (Decidable (∀ _ ∈ _, _))

theorem Outside.not_owned (o : m.Outside known) (t : m.Tidy) (hid : id ∈ known) {f : Function}
    (hf : f ∈ m.plainFunctions) : id ∉ f.owned := by
  intro ho
  obtain ⟨l, hl, hd⟩ := List.mem_filterMap.mp (t.owned_defined hf ho)
  exact (o id hid).2 (List.mem_filterMap.mpr ⟨l, mem_lines_of_plain hf hl, hd⟩)

end Module

/-! ## One pass -/

section Pass

variable {p : Text} {m : Module} {copied copied' known : List Text} {ls calls last : List Line} {e : Expansion}
  {f : Function} {id : Text}

/-- The identifier is known, a line of the expansion gives it, or a rename takes it away. -/
def Expansion.Has (m : Module) (known : List Text) (e : Expansion) (id : Text) : Prop :=
  m.Provides known e.lines id ∨ id ∈ e.renames.map Rename.old

/-- The identifier is used by one of the lines expanded, or the expansion has it. -/
def Expansion.Draws (m : Module) (known : List Text) (ls : List Line) (e : Expansion) (id : Text) : Prop :=
  (∃ k ∈ ls, id ∈ k.carried) ∨ e.Has m known id

/-- An expansion has all that the body of a copy uses, under the names of the copy. -/
theorem Replacement.has [KeyOrder] (t : m.Tidy) (r : m.Readable) (o : m.Outside known) {l : Line} {call : Call} {copy : Nat}
    (c : Replacement p m copied ls copied' e l call f copy) (hid : m.Provides (known ++ f.parameterIds) f.bodyLines id) :
    e.Has m known (f.nameIn copy id) := by
  have hf := c.plain
  rcases hid with hid | hid
  · rcases List.mem_append.mp hid with hid | hid
    · rw [Function.nameIn_of_not_mem (o.not_owned t hid hf)]
      exact Or.inl (Or.inl hid)
    · obtain ⟨arg, -, hr⟩ := Function.exists_argument c.copyable hid copy
      exact Or.inr (List.mem_map.mpr ⟨_, c.renames hr, rfl⟩)
  · obtain ⟨k, hk, hgives⟩ := List.mem_filterMap.mp hid
    have hline := Function.bodyLines_subset hk
    have spaced := t.spaced_plain hf k hline
    refine Or.inl (Or.inr (List.mem_filterMap.mpr ⟨_, c.lines ((t.mem_copyLines hf).mpr ⟨k, hk, rfl⟩), ?_⟩))
    rw [Module.gives_renameIds spaced (Function.plain_nameIn spaced copy) fun hcall => ?_, hgives]
    · rfl
    · obtain ⟨call, hc⟩ := r.call (Module.plain_mem_functions hf) hline hcall
      have called := Module.Readable.called_of_site hf (List.mem_filterMap.mpr ⟨k, hk, site?_of_call hcall hc⟩)
      exact ⟨call, hc, Function.nameIn_of_not_mem (r.not_owned hf called) copy⟩

namespace Expands

variable [KeyOrder]

/-- What an expansion uses, and what its renames bring in, main used or the expansion has. -/
theorem draws_carried (t : m.Tidy) (r : m.Readable) (o : m.Outside known) (bodies : ∀ f ∈ m.plainFunctions, m.SuppliesBody known f)
    (h : Expands p m copied ls copied' e) :
    (∀ l ∈ e.lines, ∀ id ∈ l.carried, e.Draws m known ls id) ∧ ∀ rename ∈ e.renames, e.Draws m known ls rename.new := by
  constructor
  · intro l hl id hid
    rcases h.mem_lines hl with ⟨hl, -⟩ | ⟨_, call, f, copy, c, hl⟩
    · exact Or.inl ⟨l, hl, hid⟩
    · obtain ⟨j, hj, spaced, named, rfl⟩ := t.of_mem_copyLines c.plain hl
      rw [Line.carried_renameIds spaced named] at hid
      obtain ⟨x, hx, rfl⟩ := List.mem_map.mp hid
      exact Or.inr (c.has t r o ((bodies f c.plain).body j hj x hx))
  · intro rename hr
    obtain ⟨k, call, f, copy, c, hr⟩ := h.mem_renames hr
    rcases Function.mem_copyRenames hr with ⟨-, -, -, hnew⟩ | ⟨value, hv, rfl⟩
    · exact Or.inl ⟨k, c.mem, by rwa [Line.carried_of_call c.isCall c.read]⟩
    · exact Or.inr (c.has t r o ((bodies f c.plain).value value hv))

/-- What a line of main gives, the expansion has: it keeps the line, or it takes the result away. -/
theorem has_given (h : Expands p m copied ls copied' e) {k : Line} (hk : k ∈ ls) (hid : m.gives k = some id) :
    e.Has m known id := by
  cases hcall : k.isCall with
  | false => exact Or.inl (Or.inr (List.mem_filterMap.mpr ⟨k, h.mem_lines_of_not_call hk hcall, hid⟩))
  | true =>
    obtain ⟨call, f, copy, c⟩ := h.exists_replacement hk hcall
    obtain ⟨hv, rfl⟩ := Module.gives_of_call hcall c.read c.callee hid
    exact Or.inr (h.result_mem_olds hk hcall c.read c.callee hv)

/-- What supplied lines draw on, their expansion has. -/
theorem has_of_draws (h : Expands p m copied ls copied' e) (supplied : m.Supplied known ls) (hid : e.Draws m known ls id) :
    e.Has m known id := by
  rcases hid with ⟨k, hk, hid⟩ | hid
  · rcases supplied k hk id hid with hid | hid
    · exact Or.inl (Or.inl hid)
    · obtain ⟨j, hj, hg⟩ := List.mem_filterMap.mp hid
      exact h.has_given hj hg
  · exact hid

end Expands

/-- A pass leaves main supplied. -/
theorem Module.Supplied.pass [KeyOrder] (t : m.Tidy) (a : m.Apart) (r : m.Readable) (o : m.Outside known)
    (bodies : ∀ f ∈ m.plainFunctions, m.SuppliesBody known f) (hy : Hygienic m copied ls) (ready : Ready m copied ls)
    (supplied : m.Supplied known ls) (h : Expands p m copied ls copied' e) : m.Supplied known e.renamed := by
  obtain ⟨lines, news⟩ := h.draws_carried t r o bodies
  intro l' hl' id hid
  obtain ⟨l, hl, rfl⟩ := List.mem_map.mp hl'
  rw [Line.carried_renameIds (h.spaced t hy.spaced l hl) (h.plain_composed t hy.spaced hl)] at hid
  obtain ⟨x, hx, rfl⟩ := List.mem_map.mp hid
  have final : e.Has m known (Rename.composed e.renames x) := by
    rcases Rename.composed_eq_or_mem e.renames x with he | ⟨rename, hr, he⟩
    · rw [he]
      exact h.has_of_draws supplied (lines l hl x hx)
    · rw [he]
      exact h.has_of_draws supplied (news rename hr)
  -- The names taken away are gone, so what is left is known, or a line gives it and keeps its name.
  refine (final.resolve_right (Rename.composed_not_mem_olds (h.chained t a hy) x)).imp_right fun hid => ?_
  obtain ⟨k, hk, hg⟩ := List.mem_filterMap.mp hid
  have hd := Module.gives_eq_some hg
  refine List.mem_filterMap.mpr ⟨_, List.mem_map_of_mem hk, ?_⟩
  rw [Module.gives_renameIds (h.spaced t hy.spaced k hk) (h.plain_composed t hy.spaced hk) fun hcall => ?_, hg]
  · exact congrArg some (h.composed_defined t hy.toSound (List.mem_filterMap.mpr ⟨k, hk, hd⟩))
  · obtain ⟨call, hc, hcalled, -⟩ := h.called t r hk hcall
    exact ⟨call, hc, h.composed_called t r ready hcalled⟩

/-! ## All passes -/

/-- What main defines otherwise than by a call, it still defines after a pass. -/
theorem Expands.keeps_defined [KeyOrder] (t : m.Tidy) (sound : Sound m copied ls) (h : Expands p m copied ls copied' e)
    (hid : ∃ l ∈ ls, l.isCall = false ∧ l.defined? = some id) : ∃ l ∈ e.renamed, l.isCall = false ∧ l.defined? = some id := by
  obtain ⟨l, hl, hcall, hd⟩ := hid
  have kept := h.mem_lines_of_not_call hl hcall
  refine ⟨_, List.mem_map_of_mem kept, ?_, (h.defined?_renamed t sound kept).trans hd⟩
  rw [(h.spaced t sound.spaced l kept).isCall_renameIds (h.plain_composed t sound.spaced kept), hcall]

/-- After the passes main is well spaced and defines what it did otherwise than by calls, and
    all that it uses is known from outside or defined by one of its lines. -/
theorem Runs.supplied [KeyOrder] (t : m.Tidy) (a : m.Apart) (r : m.Readable) (o : m.Outside known)
    (bodies : ∀ f ∈ m.plainFunctions, m.SuppliesBody known f) (arguments : ∀ f ∈ m.plainFunctions, ArgumentsReady f.lines)
    (h : Runs p m copied ls calls last) (hy : Hygienic m copied ls) (ready : Ready m copied ls)
    (supplied : m.Supplied known ls) :
    (∀ l ∈ last, l.WellSpaced) ∧
      (∀ id, (∃ l ∈ ls, l.isCall = false ∧ l.defined? = some id) → id ∈ last.filterMap Line.defined?) ∧
      ∀ l ∈ last, ∀ id ∈ l.operandIds, id ∈ known ∨ id ∈ last.filterMap Line.defined? := by
  induction h with
  | @done copied ls clean =>
    refine ⟨hy.spaced, ?_, fun l hl id hid => ?_⟩
    · rintro id ⟨l, hl, -, hd⟩
      exact List.mem_filterMap.mpr ⟨l, hl, hd⟩
    · rw [← Line.carried_of_not_call (clean l hl)] at hid
      exact (supplied l hl id hid).defined
  | @pass copied copied' copied'' ls calls last e he hcount _ ih =>
    have same : ∀ name, copied'.count name ≤ copied''.count name := fun name => Nat.le_of_eq (hcount name).symm
    obtain ⟨spaced, defined, uses⟩ := ih ((hy.pass t a arguments he).mono same) ((ready.pass t r he).mono same)
      (supplied.pass t a r o bodies hy ready he)
    exact ⟨spaced, fun id hid => defined id (he.keeps_defined t hy.toSound hid), uses⟩

end Pass

end SpirvLink
