/-
  SpirvLink.Proofs.Inlining.Expansion — what a pass makes of the lines of main.

  `Expands` says which lines stand for the lines of main once every call is replaced, and
  which renames are then to be made. A pass succeeds exactly when there is such an
  expansion, and its lines are those with the renames made (`Expands.expandLines`,
  `exists_expands_of_pass`).

  What an expansion has is from main or from a copy that stands for a call of main
  (`Expands.mem_lines`, `Expands.mem_renames`; the copy is a `Replacement`). From that follow
  what its lines define (`Expands.defines`), what its renames take away (`Expands.olds`), and
  where the identifiers that it brings in are from (`Expands.ids`, `Expands.news`).
-/

import SpirvLink.Inlining.Passes
import SpirvLink.Proofs.Inlining.KeyOrder

namespace SpirvLink

/-! ## One copy -/

namespace Function

/-- What a call needs of the function that it names: a parameter with an identifier for
    each argument, a label with a return after it, and a value to return or the void type. -/
structure Copyable (p : Text) (f : Function) (arguments : Nat) : Prop where
  named : ∀ l ∈ f.parameterLines, l.defined?.isSome = true
  arity : f.arity = arguments
  ends : ∃ l ∈ f.afterLabel, l.isReturn = true
  returns : f.returnValue?.isSome = true ∨ f.returnsVoid p = .ok true

/-- Each parameter becomes its argument. -/
def passed (f : Function) (copy : Nat) (arguments : List Text) : List Rename :=
  (f.parameterIds.map (f.nameIn copy)).zipWith Rename.mk arguments

/-- The result of the call becomes the value returned, if one is. -/
def returned (f : Function) (copy : Nat) (result : Text) : List Rename :=
  (f.returnValue?.map fun value => ⟨result, f.nameIn copy value⟩).toList

def copyRenames (f : Function) (copy : Nat) (call : Call) : List Rename :=
  f.passed copy call.arguments ++ f.returned copy call.result

variable {p : Text} {f : Function} {call : Call} {copy : Nat}

theorem resultRenames_eq_ok {name : Text} {rename : Text → Text} {rs : List Rename} :
    Inlining.resultRenames p f name call rename = .ok rs ↔
      (f.returnValue?.isSome = true ∨ f.returnsVoid p = .ok true) ∧
        rs = Rename.effective (f.returnValue?.map fun value => ⟨call.result, rename value⟩).toList := by
  unfold Inlining.resultRenames
  cases f.returnValue? with
  | some value => simp [eq_comm]
  | none =>
    cases f.returnsVoid p with
    | error e => simp [bind, Except.bind]
    | ok void => cases void <;> simp [bind, Except.bind, pure, Except.pure, throw, throwThe,
        MonadExceptOf.throw, Rename.effective, eq_comm]

theorem copyBody_eq_ok [KeyOrder] {e : Expansion} : (Inlining.copyBody p f call copy).result = .ok e ↔
    (∃ name, f.name = .ok name) ∧ f.Copyable p call.arguments.length ∧
      e = ⟨f.copyLines copy, Rename.effective (f.copyRenames copy call)⟩ := by
  unfold Inlining.copyBody
  constructor
  · intro h
    obtain ⟨name, hname, h⟩ := Logged.bind_result_eq_ok.mp h
    obtain ⟨ps, hps, h⟩ := Logged.bind_result_eq_ok.mp h
    obtain ⟨named, rfl⟩ := parameters_eq_ok.mp hps
    by_cases harity : f.parameterIds.length = call.arguments.length
    · rw [if_neg (by simpa using harity)] at h
      obtain ⟨-, -, h⟩ := Logged.bind_result_eq_ok.mp h
      obtain ⟨body, hbody, h⟩ := Logged.bind_result_eq_ok.mp h
      obtain ⟨-, ends, rfl⟩ := body_eq_ok.mp hbody
      obtain ⟨-, -, h⟩ := Logged.bind_result_eq_ok.mp h
      obtain ⟨rs, hrs, h⟩ := Logged.bind_result_eq_ok.mp h
      obtain ⟨returns, rfl⟩ := resultRenames_eq_ok.mp hrs
      obtain ⟨-, -, h⟩ := Logged.bind_result_eq_ok.mp h
      cases h
      refine ⟨⟨name, hname⟩, ⟨named, (length_parameterIds named).symm.trans harity, ends, returns⟩, ?_⟩
      rw [copyRenames, Rename.effective_append]
      rfl
    · rw [if_pos harity] at h
      obtain ⟨-, h, -⟩ := Logged.bind_result_eq_ok.mp h
      cases h
  · rintro ⟨⟨name, hname⟩, hc, rfl⟩
    have harity : f.parameterIds.length = call.arguments.length :=
      (length_parameterIds hc.named).trans hc.arity
    refine Logged.bind_result_eq_ok.mpr ⟨name, hname, Logged.bind_result_eq_ok.mpr
      ⟨_, parameters_eq_ok.mpr ⟨hc.named, rfl⟩, ?_⟩⟩
    rw [if_neg (by simpa using harity)]
    refine Logged.bind_result_eq_ok.mpr
      ⟨_, body_eq_ok.mpr ⟨⟨name, hname⟩, hc.ends, rfl⟩, Logged.bind_result_eq_ok.mpr ⟨(), rfl, ?_⟩⟩
    refine Logged.bind_result_eq_ok.mpr ⟨_, resultRenames_eq_ok.mpr ⟨hc.returns, rfl⟩,
      Logged.bind_result_eq_ok.mpr ⟨(), rfl, ?_⟩⟩
    rw [copyRenames, Rename.effective_append]
    rfl

end Function

theorem Call.ofLine_eq_ok {l : Line} {call : Call} : Call.ofLine l = .ok call ↔
    l.defined? = some call.result ∧ l.rhsIds = call.returnType :: call.callee :: call.arguments := by
  unfold Call.ofLine
  obtain ⟨result, returnType, callee, arguments⟩ := call
  cases hd : l.defined? with
  | none => simp
  | some id =>
    cases hr : l.rhsIds with
    | nil => simp
    | cons a rest =>
      cases rest with
      | nil => simp
      | cons b rest => simp [eq_comm]

/-- An argument stands on the line of its call. -/
theorem Call.mem_rhsIds {l : Line} {call : Call} (h : Call.ofLine l = .ok call) {id : Text} (hid : id ∈ call.arguments) :
    id ∈ l.rhsIds := by
  rw [(Call.ofLine_eq_ok.mp h).2]
  exact List.mem_cons_of_mem _ (List.mem_cons_of_mem _ hid)

/-! ## What calls take and give -/

namespace Line

/-- What the call on the line defines. -/
def result? (l : Line) : Option Text :=
  if l.isCall then l.defined? else none

def arguments (l : Line) : List Text :=
  if l.isCall then l.rhsIds.drop 2 else []

variable {l : Line} {g : Text → Text} {call : Call}

theorem result?_of_call (hl : l.isCall = true) (hc : Call.ofLine l = .ok call) :
    l.result? = some call.result := by
  rw [result?, if_pos hl, (Call.ofLine_eq_ok.mp hc).1]

theorem result?_of_not_call (hl : l.isCall = false) : l.result? = none :=
  if_neg (by simp [hl])

theorem arguments_of_call (hl : l.isCall = true) (hc : Call.ofLine l = .ok call) :
    l.arguments = call.arguments := by
  rw [arguments, if_pos hl, (Call.ofLine_eq_ok.mp hc).2]
  rfl

theorem result?_eq_some {id : Text} (h : l.result? = some id) : l.isCall = true ∧ l.defined? = some id := by
  unfold result? at h
  split at h
  · exact ⟨‹_›, h⟩
  · cases h

theorem arguments_subset (hl : l.WellSpaced) : l.arguments ⊆ l.ids := by
  intro id hid
  unfold arguments at hid
  split at hid
  · exact hl.mem_ids_of_rhs (List.mem_of_mem_drop hid)
  · cases hid

theorem result?_renameIds (hl : l.WellSpaced) (hg : ∀ id ∈ l.ids, Text.IsPlainIdent (g id)) :
    (l.renameIds g).result? = l.result?.map g := by
  rw [result?, result?, hl.isCall_renameIds hg, hl.defined?_renameIds hg]
  split <;> rfl

theorem arguments_renameIds (hl : l.WellSpaced) (hg : ∀ id ∈ l.ids, Text.IsPlainIdent (g id)) :
    (l.renameIds g).arguments = l.arguments.map g := by
  rw [arguments, arguments, hl.isCall_renameIds hg, hl.rhsIds_renameIds hg]
  split
  · rw [List.map_drop]
  · rfl

end Line

/-! ## All lines of main -/

/-- The lines and renames that stand for lines of main once every call is replaced, given
    the copies made before; the third index adds the copies made on the way. -/
inductive Expands [KeyOrder] (p : Text) (m : Module) : List Text → List Line → List Text → Expansion → Prop
  | nil (copied : List Text) : Expands p m copied [] copied ⟨[], []⟩
  | keep {l : Line} {ls : List Line} {copied copied' : List Text} {e : Expansion} : l.isCall = false →
      Expands p m copied ls copied' e → Expands p m copied (l :: ls) copied' ⟨l :: e.lines, e.renames⟩
  | copy {l : Line} {ls : List Line} {copied copied' : List Text} {e : Expansion} {call : Call}
      {f : Function} : l.isCall = true → Call.ofLine l = .ok call →
      Inlining.resolve m call.callee = .ok f → f.Copyable p call.arguments.length →
      Expands p m (call.callee :: copied) ls copied' e →
      Expands p m copied (l :: ls) copied'
        ⟨f.copyLines (copied.count call.callee + 1) ++ e.lines,
          f.copyRenames (copied.count call.callee + 1) call ++ e.renames⟩

variable {p : Text} {m : Module} {copied copied' : List Text} {ls : List Line} {e : Expansion}

/-- The expansion with the renames that change nothing left out. -/
def Expansion.told (e : Expansion) : Expansion :=
  ⟨e.lines, Rename.effective e.renames⟩

section

variable [KeyOrder]

theorem Expands.expandLines (h : Expands p m copied ls copied' e) :
    (Inliner.expandLines p m copied ls).result = .ok e.told := by
  induction h with
  | nil copied => rfl
  | keep hcall _ ih =>
    rw [Inliner.expandLines, if_neg (by simp [hcall])]
    exact Logged.bind_result_eq_ok.mpr ⟨_, ih, rfl⟩
  | copy hcall hline hres hcopy _ ih =>
    rw [Inliner.expandLines, if_pos hcall]
    refine Logged.bind_result_eq_ok.mpr ⟨_, hline, Logged.bind_result_eq_ok.mpr ⟨_, hres,
      Logged.bind_result_eq_ok.mpr ⟨(), rfl, Logged.bind_result_eq_ok.mpr ⟨_, Function.copyBody_eq_ok.mpr
        ⟨⟨_, (Module.plain_of_resolve hres).2⟩, hcopy, rfl⟩, Logged.bind_result_eq_ok.mpr ⟨_, ih, ?_⟩⟩⟩⟩⟩
    rw [Logged.result_pure, Expansion.told, Expansion.told, Rename.effective_append]

theorem exists_expands : ∀ {ls : List Line} {copied : List Text} {told : Expansion},
    (Inliner.expandLines p m copied ls).result = .ok told →
    ∃ copied' e, Expands p m copied ls copied' e ∧ told = e.told
  | [], copied, told, h => by
    cases h
    exact ⟨copied, ⟨[], []⟩, .nil copied, rfl⟩
  | l :: ls, copied, told, h => by
    rw [Inliner.expandLines] at h
    by_cases hcall : l.isCall = true
    · rw [if_pos hcall] at h
      obtain ⟨call, hline, h⟩ := Logged.bind_result_eq_ok.mp h
      obtain ⟨f, hres, h⟩ := Logged.bind_result_eq_ok.mp h
      obtain ⟨-, -, h⟩ := Logged.bind_result_eq_ok.mp h
      obtain ⟨here, hhere, h⟩ := Logged.bind_result_eq_ok.mp h
      obtain ⟨rest, hrest, h⟩ := Logged.bind_result_eq_ok.mp h
      cases h
      obtain ⟨-, hcopy, rfl⟩ := Function.copyBody_eq_ok.mp hhere
      obtain ⟨copied', e, he, rfl⟩ := exists_expands hrest
      refine ⟨copied', _, .copy hcall hline hres hcopy he, ?_⟩
      rw [Expansion.told, Expansion.told, Rename.effective_append]
    · rw [if_neg hcall] at h
      obtain ⟨rest, hrest, h⟩ := Logged.bind_result_eq_ok.mp h
      cases h
      obtain ⟨copied', e, he, rfl⟩ := exists_expands hrest
      exact ⟨copied', _, .keep (by simpa using hcall) he, rfl⟩

/-- A pass that succeeds makes the renames over the expansion. -/
theorem exists_expands_of_pass {i : Inliner} {lines : List Line} (h : (i.pass m ⟨ls⟩).result = .ok lines) :
    ∃ copied' e, Expands i.kernelPrefix m i.copied ls copied' e ∧
      lines = (Rename.applyAll e.told.renames e.told.lines).map Line.trim := by
  obtain ⟨told, htold, h⟩ := Logged.bind_result_eq_ok.mp h
  obtain ⟨copied', e, he, rfl⟩ := exists_expands htold
  cases h
  exact ⟨copied', e, he, rfl⟩

end

/-! ## What a copy brings in -/

namespace Module

/-- The name that a parameter has in some copy. -/
def ParameterName (m : Module) (id : Text) : Prop :=
  ∃ f ∈ m.plainFunctions, ∃ q ∈ f.parameterIds, ∃ copy, 0 < copy ∧ id = f.nameIn copy q

/-- A plain function uses the identifier and does not own it. -/
def Foreign (m : Module) (id : Text) : Prop :=
  ∃ f ∈ m.plainFunctions, id ∉ f.owned ∧ ∃ l ∈ f.lines, id ∈ l.ids

/-- The name is brought in by one of the copies that lead from the first list of copies to
    the second. -/
def Made (m : Module) (copied copied' : List Text) (id : Text) : Prop :=
  m.Upcoming copied id ∧ ¬ m.Upcoming copied' id

variable {f : Function} {name id : Text}

/-- The names of a copy are made by the copies among which it is. -/
theorem made_copy (t : m.Tidy) (hf : f ∈ m.plainFunctions) (hn : f.name = .ok name) (hid : id ∈ f.owned) {copy : Nat}
    (above : copied.count name < copy) (upTo : copy ≤ copied'.count name) : m.Made copied copied' (f.nameIn copy id) := by
  have pos : 0 < copy := Nat.zero_lt_of_lt above
  unfold Made
  rw [m.upcoming_nameIn t hf hn hid pos, m.upcoming_nameIn t hf hn hid pos]
  omega

theorem Made.of_rest (hm : m.Made (name :: copied) copied' id) : m.Made copied copied' id :=
  ⟨hm.1.anti fun _ => List.count_le_count_cons .., hm.2⟩

theorem made_nameIn (t : m.Tidy) (copied : List Text) (hf : f ∈ m.plainFunctions) (hn : f.name = .ok name)
    (hid : id ∈ f.owned) : m.Made copied (name :: copied) (f.nameIn (copied.count name + 1) id) :=
  made_copy t hf hn hid (Nat.lt_succ_self _) (Nat.le_of_eq List.count_cons_self.symm)

/-- What a body defines never has the name of a parameter in a copy. -/
theorem not_parameterName (t : m.Tidy) (hf : f ∈ m.plainFunctions) {l : Line} (hl : l ∈ f.bodyLines)
    (hd : l.defined? = some id) {copy : Nat} (hc : 0 < copy) : ¬ m.ParameterName (f.nameIn copy id) := by
  rintro ⟨g, hg, q, hq, copy', hc', heq⟩
  obtain ⟨rfl, -, rfl⟩ := t.nameIn_injective hf hg (Function.mem_owned_of_body hl hd)
    (Function.mem_owned_of_parameter hq) hc hc' heq
  have nodup := t.owned_nodup hf
  rw [Function.owned, List.nodup_append] at nodup
  exact nodup.2.2 _ hq _ (List.mem_filterMap.mpr ⟨l, hl, hd⟩) rfl

/-- An identifier on a line of a function is owned by it, or foreign to it and kept by copies. -/
theorem owned_or_foreign (hf : f ∈ m.plainFunctions) {l : Line} (hl : l ∈ f.lines) (hid : id ∈ l.ids) (copy : Nat) :
    id ∈ f.owned ∨ (m.Foreign id ∧ f.nameIn copy id = id) := by
  by_cases ho : id ∈ f.owned
  · exact Or.inl ho
  · exact Or.inr ⟨⟨f, hf, ho, l, hl, hid⟩, Function.nameIn_of_not_mem ho _⟩

theorem made_or_foreign (t : m.Tidy) (copied : List Text) (hf : f ∈ m.plainFunctions) (hn : f.name = .ok name)
    {l : Line} (hl : l ∈ f.lines) (hid : id ∈ l.ids) :
    m.Made copied (name :: copied) (f.nameIn (copied.count name + 1) id) ∨
      (m.Foreign id ∧ f.nameIn (copied.count name + 1) id = id) :=
  (owned_or_foreign hf hl hid _).imp_left (made_nameIn t copied hf hn)

end Module

namespace Function

variable {f : Function} {copy : Nat}

theorem plain_nameIn {l : Line} (h : l.WellSpaced) (copy : Nat) :
    ∀ id ∈ l.ids, Text.IsPlainIdent (f.nameIn copy id) :=
  fun id hid => isPlainIdent_nameIn (h.plain id hid) copy

theorem mem_passed {arguments : List Text} {r : Rename} (h : r ∈ f.passed copy arguments) :
    (∃ q ∈ f.parameterIds, r.old = f.nameIn copy q) ∧ r.new ∈ arguments := by
  rw [passed, ← List.map_uncurry_zip_eq_zipWith] at h
  obtain ⟨⟨old, new⟩, hz, rfl⟩ := List.mem_map.mp h
  obtain ⟨hold, hnew⟩ := List.of_mem_zip hz
  obtain ⟨q, hq, rfl⟩ := List.mem_map.mp hold
  exact ⟨⟨q, hq, rfl⟩, hnew⟩

theorem mem_returned {result : Text} {r : Rename} (h : r ∈ f.returned copy result) :
    ∃ value, f.returnValue? = some value ∧ r = ⟨result, f.nameIn copy value⟩ := by
  rw [returned, Option.mem_toList] at h
  obtain ⟨value, hv, rfl⟩ := Option.map_eq_some_iff.mp h
  exact ⟨value, hv, rfl⟩

theorem mem_copyRenames {call : Call} {r : Rename} (h : r ∈ f.copyRenames copy call) :
    (∃ q ∈ f.parameterIds, r.old = f.nameIn copy q ∧ r.new ∈ call.arguments) ∨
      ∃ value, f.returnValue? = some value ∧ r = ⟨call.result, f.nameIn copy value⟩ := by
  rcases List.mem_append.mp h with h | h
  · obtain ⟨⟨q, hq, hold⟩, hnew⟩ := mem_passed h
    exact Or.inl ⟨q, hq, hold, hnew⟩
  · exact Or.inr (mem_returned h)

theorem mem_ids_of_returnValue {value : Text} (h : f.returnValue? = some value) :
    ∃ l ∈ f.lines, value ∈ l.ids := by
  obtain ⟨l, hl, hv⟩ := Option.bind_eq_some_iff.mp h
  exact ⟨l, List.mem_of_find?_eq_some hl, List.mem_of_mem_head? hv⟩

end Function

section

variable [KeyOrder]

namespace Module.Tidy

variable {f : Function} {copy : Nat} {l : Line} {id : Text}

theorem defined_copyLines (t : m.Tidy) (hf : f ∈ m.plainFunctions) (copy : Nat) :
    (f.copyLines copy).filterMap Line.defined? = (f.bodyLines.filterMap Line.defined?).map (f.nameIn copy) := by
  rw [t.copyLines hf, List.filterMap_map, List.map_filterMap]
  refine List.filterMap_congr fun l hl => ?_
  have spaced := t.spaced_plain hf l (Function.bodyLines_subset hl)
  exact spaced.defined?_renameIds (Function.plain_nameIn spaced copy)

theorem defined_of_mem_copyLines (t : m.Tidy) (hf : f ∈ m.plainFunctions) (hl : l ∈ f.copyLines copy)
    (hid : l.defined? = some id) : ∃ k ∈ f.bodyLines, ∃ d, k.defined? = some d ∧ f.nameIn copy d = id := by
  have mem : id ∈ (f.copyLines copy).filterMap Line.defined? := List.mem_filterMap.mpr ⟨l, hl, hid⟩
  rw [t.defined_copyLines hf] at mem
  obtain ⟨d, hd, rfl⟩ := List.mem_map.mp mem
  obtain ⟨k, hk, hkd⟩ := List.mem_filterMap.mp hd
  exact ⟨k, hk, d, hkd, rfl⟩

/-- A line of a copy is one of the body, with the names that the copy has for its identifiers. -/
theorem of_mem_copyLines (t : m.Tidy) (hf : f ∈ m.plainFunctions) (hl : l ∈ f.copyLines copy) :
    ∃ k ∈ f.bodyLines, k.WellSpaced ∧ (∀ id ∈ k.ids, Text.IsPlainIdent (f.nameIn copy id)) ∧
      k.renameIds (f.nameIn copy) = l := by
  obtain ⟨k, hk, rfl⟩ := (t.mem_copyLines hf).mp hl
  have spaced := t.spaced_plain hf k (Function.bodyLines_subset hk)
  exact ⟨k, hk, spaced, Function.plain_nameIn spaced copy, rfl⟩

theorem ids_copyLines (t : m.Tidy) (hf : f ∈ m.plainFunctions) (hl : l ∈ f.copyLines copy) (hid : id ∈ l.ids) :
    ∃ k ∈ f.lines, ∃ id' ∈ k.ids, id = f.nameIn copy id' := by
  obtain ⟨k, hk, -, named, rfl⟩ := t.of_mem_copyLines hf hl
  rw [Line.ids_renameIds fun i hi => (named i hi).1] at hid
  obtain ⟨id', hid', rfl⟩ := List.mem_map.mp hid
  exact ⟨k, Function.bodyLines_subset hk, id', hid', rfl⟩

end Module.Tidy

/-! ## The copies of an expansion -/

/-- The call on the line is replaced: by which copy of which function. The number of the copy
    is one of those added, and the expansion has the lines and the renames of the copy. -/
structure Replacement (p : Text) (m : Module) (copied : List Text) (ls : List Line) (copied' : List Text) (e : Expansion)
    (l : Line) (call : Call) (f : Function) (copy : Nat) : Prop where
  mem : l ∈ ls
  isCall : l.isCall = true
  read : Call.ofLine l = .ok call
  callee : Inlining.resolve m call.callee = .ok f
  copyable : f.Copyable p call.arguments.length
  above : copied.count call.callee < copy
  upTo : copy ≤ copied'.count call.callee
  lines : f.copyLines copy ⊆ e.lines
  renames : f.copyRenames copy call ⊆ e.renames

namespace Expands

variable {l : Line}

theorem count_le (h : Expands p m copied ls copied' e) (name : Text) :
    copied.count name ≤ copied'.count name := by
  induction h with
  | nil copied => exact Nat.le_refl _
  | keep _ _ ih => exact ih
  | copy _ _ _ _ _ ih => exact Nat.le_trans (List.count_le_count_cons ..) ih

/-- The expansion of two runs of lines is the one of the first, then the one of the second
    after the copies of the first. -/
theorem append_inv (h : Expands p m copied (ls ++ ls') copied' e) : ∃ mid e₁ e₂,
    Expands p m copied ls mid e₁ ∧ Expands p m mid ls' copied' e₂ ∧
      e = ⟨e₁.lines ++ e₂.lines, e₁.renames ++ e₂.renames⟩ := by
  induction ls generalizing copied e with
  | nil => exact ⟨copied, ⟨[], []⟩, e, .nil copied, h, rfl⟩
  | cons k ls ih =>
    cases h with
    | keep hk hrest =>
      obtain ⟨mid, e₁, e₂, h₁, h₂, rfl⟩ := ih hrest
      exact ⟨mid, _, e₂, .keep hk h₁, h₂, rfl⟩
    | copy hk hline hres hcopy hrest =>
      obtain ⟨mid, e₁, e₂, h₁, h₂, rfl⟩ := ih hrest
      refine ⟨mid, _, e₂, .copy hk hline hres hcopy h₁, h₂, ?_⟩
      rw [List.append_assoc, List.append_assoc]

end Expands

namespace Replacement

variable {l k : Line} {call : Call} {f : Function} {copy : Nat} {id : Text}

theorem first (hcall : l.isCall = true) (hline : Call.ofLine l = .ok call) (hres : Inlining.resolve m call.callee = .ok f)
    (hcopy : f.Copyable p call.arguments.length) (hrest : Expands p m (call.callee :: copied) ls copied' e) :
    Replacement p m copied (l :: ls) copied' ⟨f.copyLines (copied.count call.callee + 1) ++ e.lines,
      f.copyRenames (copied.count call.callee + 1) call ++ e.renames⟩ l call f (copied.count call.callee + 1) where
  mem := List.mem_cons_self ..
  isCall := hcall
  read := hline
  callee := hres
  copyable := hcopy
  above := Nat.lt_succ_self _
  upTo := by
    have le := hrest.count_le call.callee
    rwa [List.count_cons_self] at le
  lines := List.subset_append_left ..
  renames := List.subset_append_left ..

/-- A line in front of the others, and what stands for it, change nothing. -/
theorem cons (c : Replacement p m copied ls copied' e l call f copy) (k : Line) {earlier : List Text} {e' : Expansion}
    (hle : earlier.count call.callee ≤ copied.count call.callee) (lines : e.lines ⊆ e'.lines) (renames : e.renames ⊆ e'.renames) :
    Replacement p m earlier (k :: ls) copied' e' l call f copy :=
  { c with
    mem := List.mem_cons_of_mem k c.mem
    above := Nat.lt_of_le_of_lt hle c.above
    lines := List.Subset.trans c.lines lines
    renames := List.Subset.trans c.renames renames }

theorem keep (c : Replacement p m copied ls copied' e l call f copy) (k : Line) :
    Replacement p m copied (k :: ls) copied' ⟨k :: e.lines, e.renames⟩ l call f copy :=
  c.cons k (Nat.le_refl _) (List.subset_cons_self ..) (List.Subset.refl _)

theorem later {name : Text} (c : Replacement p m (name :: copied) ls copied' e l call f copy) (k : Line) (lines : List Line)
    (renames : List Rename) : Replacement p m copied (k :: ls) copied' ⟨lines ++ e.lines, renames ++ e.renames⟩ l call f copy :=
  c.cons k (List.count_le_count_cons ..) (List.subset_append_right ..) (List.subset_append_right ..)

theorem plain (c : Replacement p m copied ls copied' e l call f copy) : f ∈ m.plainFunctions :=
  (Module.plain_of_resolve c.callee).1

theorem pos (c : Replacement p m copied ls copied' e l call f copy) : 0 < copy :=
  Nat.zero_lt_of_lt c.above

/-- The copy makes the names that it gives to what its function owns. -/
theorem made (t : m.Tidy) (c : Replacement p m copied ls copied' e l call f copy) (hid : id ∈ f.owned) :
    m.Made copied copied' (f.nameIn copy id) :=
  Module.made_copy t c.plain (Module.plain_of_resolve c.callee).2 hid c.above c.upTo

theorem made_or_foreign (t : m.Tidy) (c : Replacement p m copied ls copied' e l call f copy) (hk : k ∈ f.lines)
    (hid : id ∈ k.ids) : m.Made copied copied' (f.nameIn copy id) ∨ m.Foreign (f.nameIn copy id) := by
  rcases Module.owned_or_foreign c.plain hk hid copy with ho | ⟨hu, he⟩
  · exact Or.inl (c.made t ho)
  · exact Or.inr (by rwa [he])

end Replacement

namespace Expands

variable {l : Line} {r : Rename}

/-- A line of an expansion is a line of main that is no call, or it is from a copy. -/
theorem mem_lines (h : Expands p m copied ls copied' e) (hl : l ∈ e.lines) : (l ∈ ls ∧ l.isCall = false) ∨
    ∃ k call f copy, Replacement p m copied ls copied' e k call f copy ∧ l ∈ f.copyLines copy := by
  induction h with
  | nil copied => cases hl
  | @keep k ls copied copied' e hcall _ ih =>
    rcases List.mem_cons.mp hl with rfl | hl
    · exact Or.inl ⟨List.mem_cons_self .., hcall⟩
    · exact (ih hl).imp (And.imp_left (List.mem_cons_of_mem k))
        fun ⟨j, call, f, _, c, hl⟩ => ⟨j, call, f, _, c.keep k, hl⟩
  | @copy k ls copied copied' e call f hcall hline hres hcopy hrest ih =>
    rcases List.mem_append.mp hl with hl | hl
    · exact Or.inr ⟨k, call, f, _, .first hcall hline hres hcopy hrest, hl⟩
    · exact (ih hl).imp (And.imp_left (List.mem_cons_of_mem k))
        fun ⟨j, call, f, _, c, hl⟩ => ⟨j, call, f, _, c.later k _ _, hl⟩

/-- A rename of an expansion is from a copy. -/
theorem mem_renames (h : Expands p m copied ls copied' e) (hr : r ∈ e.renames) :
    ∃ k call f copy, Replacement p m copied ls copied' e k call f copy ∧ r ∈ f.copyRenames copy call := by
  induction h with
  | nil copied => cases hr
  | @keep k ls copied copied' e _ _ ih =>
    obtain ⟨j, call, f, copy, c, hr⟩ := ih hr
    exact ⟨j, call, f, copy, c.keep k, hr⟩
  | @copy k ls copied copied' e call f hcall hline hres hcopy hrest ih =>
    rcases List.mem_append.mp hr with hr | hr
    · exact ⟨k, call, f, _, .first hcall hline hres hcopy hrest, hr⟩
    · obtain ⟨j, call, f, copy, c, hr⟩ := ih hr
      exact ⟨j, call, f, copy, c.later k _ _, hr⟩

/-- A line of main that is no call is kept. -/
theorem mem_lines_of_not_call (h : Expands p m copied ls copied' e) (hl : l ∈ ls) (hcall : l.isCall = false) :
    l ∈ e.lines := by
  induction h with
  | nil copied => cases hl
  | @keep k ls copied copied' e _ _ ih =>
    rcases List.mem_cons.mp hl with rfl | hl
    · exact List.mem_cons_self ..
    · exact List.mem_cons_of_mem k (ih hl)
  | @copy k ls copied copied' e call f hk _ _ _ _ ih =>
    rcases List.mem_cons.mp hl with rfl | hl
    · rw [hk] at hcall
      cases hcall
    · exact List.mem_append_right _ (ih hl)

/-- Every call of main is replaced. -/
theorem exists_replacement (h : Expands p m copied ls copied' e) (hl : l ∈ ls) (hcall : l.isCall = true) :
    ∃ call f copy, Replacement p m copied ls copied' e l call f copy := by
  induction h with
  | nil copied => cases hl
  | @keep k ls copied copied' e hk _ ih =>
    rcases List.mem_cons.mp hl with rfl | hl
    · rw [hk] at hcall
      cases hcall
    · obtain ⟨call, f, copy, c⟩ := ih hl
      exact ⟨call, f, copy, c.keep k⟩
  | @copy k ls copied copied' e call f hk hline hres hcopy hrest ih =>
    rcases List.mem_cons.mp hl with rfl | hl
    · exact ⟨call, f, _, .first hk hline hres hcopy hrest⟩
    · obtain ⟨call, f, copy, c⟩ := ih hl
      exact ⟨call, f, copy, c.later k _ _⟩

/-- Every number added for a name is the number of a copy. -/
theorem exists_copy (h : Expands p m copied ls copied' e) {name : Text} {copy : Nat} (above : copied.count name < copy)
    (upTo : copy ≤ copied'.count name) :
    ∃ k call f, Replacement p m copied ls copied' e k call f copy ∧ call.callee = name := by
  induction h with
  | nil copied => omega
  | @keep k ls copied copied' e _ _ ih =>
    obtain ⟨j, call, f, c, hname⟩ := ih above upTo
    exact ⟨j, call, f, c.keep k, hname⟩
  | @copy k ls copied copied' e call f hcall hline hres hcopy hrest ih =>
    by_cases hlater : (call.callee :: copied).count name < copy
    · obtain ⟨j, call, f, c, hname⟩ := ih hlater upTo
      exact ⟨j, call, f, c.later k _ _, hname⟩
    · have hname : call.callee = name := by
        by_contra hne
        rw [List.count_cons_of_ne hne] at hlater
        exact hlater above
      subst hname
      rw [List.count_cons_self] at hlater
      obtain rfl : copy = copied.count call.callee + 1 := by omega
      exact ⟨k, call, f, .first hcall hline hres hcopy hrest, rfl⟩

end Expands

/-! ## What an expansion holds -/

namespace Expands

variable {l : Line} {r : Rename} {id : Text}

/-- What holds of main's lines and of all copies of bodies holds of an expansion. -/
theorem forall_lines {P : Line → Prop} (h : Expands p m copied ls copied' e) (hls : ∀ l ∈ ls, P l)
    (hcopy : ∀ f ∈ m.plainFunctions, ∀ copy, ∀ l ∈ f.copyLines copy, P l) :
    ∀ l ∈ e.lines, P l := by
  intro l hl
  rcases h.mem_lines hl with ⟨hl, -⟩ | ⟨_, _, f, copy, c, hl⟩
  · exact hls l hl
  · exact hcopy f c.plain copy l hl

theorem spaced (t : m.Tidy) (h : Expands p m copied ls copied' e) (hls : ∀ l ∈ ls, l.WellSpaced) :
    ∀ l ∈ e.lines, l.WellSpaced := by
  refine h.forall_lines hls fun f hf copy l hl => ?_
  obtain ⟨k, -, spaced, named, rfl⟩ := t.of_mem_copyLines hf hl
  exact spaced.renameIds named

/-- A line of the expansion defines what a line of main does that is no call, or what the
    body of a copy defines. -/
theorem defines (t : m.Tidy) (h : Expands p m copied ls copied' e) (hid : id ∈ e.lines.filterMap Line.defined?) :
    (∃ l ∈ ls, l.isCall = false ∧ l.defined? = some id) ∨
      (m.Made copied copied' id ∧ ¬ m.ParameterName id) := by
  obtain ⟨l, hl, hd⟩ := List.mem_filterMap.mp hid
  rcases h.mem_lines hl with ⟨hl, hcall⟩ | ⟨_, _, f, copy, c, hl⟩
  · exact Or.inl ⟨l, hl, hcall, hd⟩
  · obtain ⟨k, hk, d, hkd, rfl⟩ := t.defined_of_mem_copyLines c.plain hl hd
    exact Or.inr ⟨c.made t (Function.mem_owned_of_body hk hkd), Module.not_parameterName t c.plain hk hkd c.pos⟩

/-- A call of an expansion is a call of a body, with the names that its copy gives it. -/
theorem call_mem (t : m.Tidy) (h : Expands p m copied ls copied' e) {l : Line} (hl : l ∈ e.lines)
    (hcall : l.isCall = true) : ∃ f ∈ m.plainFunctions, ∃ copy, ∃ k ∈ f.bodyLines,
      k.renameIds (f.nameIn copy) = l ∧ ∀ id, l.defined? = some id → m.Made copied copied' id := by
  rcases h.mem_lines hl with ⟨-, hne⟩ | ⟨_, _, f, copy, c, hl⟩
  · rw [hne] at hcall
    cases hcall
  · obtain ⟨k, hk, heq⟩ := (t.mem_copyLines c.plain).mp hl
    refine ⟨f, c.plain, copy, k, hk, heq, fun id hid => ?_⟩
    obtain ⟨j, hj, d, hjd, rfl⟩ := t.defined_of_mem_copyLines c.plain hl hid
    exact c.made t (Function.mem_owned_of_body hj hjd)

/-- A rename takes away the result of a call, or the name of a parameter in a copy. -/
theorem olds (t : m.Tidy) (h : Expands p m copied ls copied' e) (hr : r ∈ e.renames) :
    (∃ l ∈ ls, l.result? = some r.old) ∨ (m.Made copied copied' r.old ∧ m.ParameterName r.old) := by
  obtain ⟨k, call, f, copy, c, hr⟩ := h.mem_renames hr
  rcases Function.mem_copyRenames hr with ⟨q, hq, hold, -⟩ | ⟨value, -, rfl⟩
  · rw [hold]
    exact Or.inr ⟨c.made t (Function.mem_owned_of_parameter hq), f, c.plain, q, hq, copy, c.pos, rfl⟩
  · exact Or.inl ⟨k, c.mem, Line.result?_of_call c.isCall c.read⟩

/-- A rename brings in an argument of a call, a name that the copies make, or an identifier
    that a function uses and does not own. -/
theorem news (t : m.Tidy) (h : Expands p m copied ls copied' e) (hr : r ∈ e.renames) :
    (∃ l ∈ ls, r.new ∈ l.arguments) ∨ m.Made copied copied' r.new ∨ m.Foreign r.new := by
  obtain ⟨k, call, f, copy, c, hr⟩ := h.mem_renames hr
  rcases Function.mem_copyRenames hr with ⟨-, -, -, hnew⟩ | ⟨value, hv, rfl⟩
  · exact Or.inl ⟨k, c.mem, by rwa [Line.arguments_of_call c.isCall c.read]⟩
  · obtain ⟨j, hj, hid⟩ := Function.mem_ids_of_returnValue hv
    exact Or.inr (c.made_or_foreign t hj hid)

/-- An identifier of the expansion is on a line of main, a name that the copies make, or
    one that a function uses and does not own. -/
theorem ids (t : m.Tidy) (h : Expands p m copied ls copied' e) (hl : l ∈ e.lines) (hid : id ∈ l.ids) :
    (∃ k ∈ ls, id ∈ k.ids) ∨ m.Made copied copied' id ∨ m.Foreign id := by
  rcases h.mem_lines hl with ⟨hl, -⟩ | ⟨_, _, f, copy, c, hl⟩
  · exact Or.inl ⟨l, hl, hid⟩
  · obtain ⟨j, hj, id', hid', rfl⟩ := t.ids_copyLines c.plain hl hid
    exact Or.inr (c.made_or_foreign t hj hid')

end Expands

end

end SpirvLink
