/-
  SpirvLink.Proofs.Reachable.Worklist — the search for what main needs, as a loop.

  The loop keeps the names still to look at, last called first, and takes one a step:
  `Worklist.step`. A known name is dropped. Any other becomes known, and the callees of all
  functions of this name are put before the names that wait, whether or not they are known.
  `Worklist.Ends` tells that the loop comes to an end and with what.

  - `exists_ends`: the loop ends. The names that wait can become more, but then one function
    less is open, that is, has a name that is not known.
  - `Follows`: what is known or waits is reached from the first calls, and a known function
    has its callees there. So the loop ends with the names that are reached, or with a
    reached function whose calls cannot be read (`Ends.exact`).
  - `reachFrom_of_ends`: the search that counts its rounds does what the loop does.
-/

import SpirvLink.Reachable
import SpirvLink.Proofs.CallGraph
import SpirvLink.Proofs.Function

namespace SpirvLink

namespace Module

/-- The name is reached from the calls in zero or more steps, each from a name to a callee of
    a function of this name. -/
def ReachedFrom (m : Module) (calls : List Text) (name : Text) : Prop :=
  ∃ first ∈ calls, Relation.ReflTransGen m.Calls first name

/-- The callees of all functions of a name, one list for each function. -/
def calleesOf (m : Module) (name : Text) : Except LinkError (List (List Text)) :=
  (m.functions.filter (Function.isNamed name)).mapM Function.callees

end Module

/-- The names that are known and those that wait, the next one first. -/
structure Worklist where
  known : List Text
  waiting : List Text

namespace Worklist

/-- The loop before its first step: the last call of main comes first. -/
def start (calls : List Text) : Worklist :=
  ⟨[], calls.reverse⟩

/-- One step of the loop: none where no name waits. -/
def step (m : Module) : Worklist → Except LinkError (Option Worklist)
  | ⟨_, []⟩ => .ok none
  | ⟨known, name :: rest⟩ =>
    if known.contains name then .ok (some ⟨known, rest⟩)
    else do
      let called ← m.calleesOf name
      return some ⟨name :: known, called.flatten.reverse ++ rest⟩

/-- The loop comes to an end after finitely many steps, with the known names or an error. -/
inductive Ends (m : Module) : Worklist → Except LinkError (List Text) → Prop
  | done {w : Worklist} : step m w = .ok none → Ends m w (.ok w.known)
  | stop {w : Worklist} {e : LinkError} : step m w = .error e → Ends m w (.error e)
  | next {w w' : Worklist} {found : Except LinkError (List Text)} :
      step m w = .ok (some w') → Ends m w' found → Ends m w found

variable {m : Module} {w w' : Worklist} {calls known rest : List Text} {name : Text} {e : LinkError}
  {found found' : Except LinkError (List Text)}

/-! ## The steps -/

/-- What a step does: it drops a known name, or makes a name known and puts the callees of
    its functions first. -/
inductive Steps (m : Module) : Worklist → Worklist → Prop
  | skip {known rest : List Text} {name : Text} (hknown : name ∈ known) :
      Steps m ⟨known, name :: rest⟩ ⟨known, rest⟩
  | look {known rest : List Text} {name : Text} {called : List (List Text)} (hnew : name ∉ known)
      (hcalled : m.calleesOf name = .ok called) :
      Steps m ⟨known, name :: rest⟩ ⟨name :: known, called.flatten.reverse ++ rest⟩

theorem step_known (h : name ∈ known) : step m ⟨known, name :: rest⟩ = .ok (some ⟨known, rest⟩) := by
  rw [step, if_pos (by simpa using h)]

theorem step_new (h : name ∉ known) : step m ⟨known, name :: rest⟩ =
    (m.calleesOf name >>= fun called => .ok (some ⟨name :: known, called.flatten.reverse ++ rest⟩)) := by
  rw [step, if_neg (by simpa using h)]
  rfl

theorem step_eq_none : step m w = .ok none ↔ w.waiting = [] := by
  match w with
  | ⟨known, []⟩ => exact ⟨fun _ => rfl, fun _ => rfl⟩
  | ⟨known, name :: rest⟩ =>
    refine ⟨fun h => ?_, fun h => (by cases h)⟩
    by_cases hname : name ∈ known
    · cases (step_known hname).symm.trans h
    · obtain ⟨called, -, h⟩ := bind_eq_ok.mp ((step_new hname).symm.trans h)
      cases h

theorem step_eq_some : step m w = .ok (some w') ↔ Steps m w w' := by
  constructor
  · intro h
    match w with
    | ⟨known, []⟩ => cases h
    | ⟨known, name :: rest⟩ =>
      by_cases hname : name ∈ known
      · cases (step_known hname).symm.trans h
        exact .skip hname
      · obtain ⟨called, hcalled, h⟩ := bind_eq_ok.mp ((step_new hname).symm.trans h)
        cases h
        exact .look hname hcalled
  · intro h
    cases h with
    | skip hknown => exact step_known hknown
    | look hnew hcalled =>
      rw [step_new hnew, hcalled]
      rfl

theorem step_eq_error (h : step m w = .error e) :
    ∃ known name rest, w = ⟨known, name :: rest⟩ ∧ name ∉ known ∧ m.calleesOf name = .error e := by
  match w with
  | ⟨known, []⟩ => cases h
  | ⟨known, name :: rest⟩ =>
    by_cases hname : name ∈ known
    · cases (step_known hname).symm.trans h
    · rw [step_new hname] at h
      cases hcalled : m.calleesOf name with
      | ok called =>
        rw [hcalled] at h
        cases h
      | error e' =>
        rw [hcalled] at h
        cases h
        exact ⟨known, name, rest, rfl, hname, hcalled⟩

/-! ## The loop ends -/

/-- The functions whose names are not known. -/
def openFunctions (m : Module) (known : List Text) : List Function :=
  m.functions.filter fun f => !known.any fun n => f.isNamed n

theorem openFunctions_cons (name : Text) (known : List Text) :
    openFunctions m (name :: known) = (openFunctions m known).filter fun f => !f.isNamed name := by
  rw [openFunctions, openFunctions, List.filter_filter]
  exact List.filter_congr fun f _ => by rw [List.any_cons, Bool.not_or]

theorem length_openFunctions_cons_le (name : Text) (known : List Text) :
    (openFunctions m (name :: known)).length ≤ (openFunctions m known).length := by
  rw [openFunctions_cons]
  exact List.length_filter_le ..

/-- A name that becomes known closes the functions that have it. -/
theorem length_openFunctions_cons_lt (hnew : name ∉ known) (named : m.functions.any (Function.isNamed name) = true) :
    (openFunctions m (name :: known)).length < (openFunctions m known).length := by
  obtain ⟨f, hf, hname⟩ := List.any_eq_true.mp named
  have unknown : (known.any fun n => f.isNamed n) = false := by
    refine Bool.eq_false_iff.mpr fun h => hnew ?_
    obtain ⟨n, hn, hother⟩ := List.any_eq_true.mp h
    rw [Function.isNamed_iff] at hname hother
    rwa [Except.ok.inj (hname.symm.trans hother)]
  rw [openFunctions_cons, List.length_filter_lt_length_iff_exists]
  exact ⟨f, List.mem_filter.mpr ⟨hf, by rw [unknown]; rfl⟩, by rw [hname]; decide⟩

/-- Names that no function has add nothing to look at. -/
theorem calleesOf_unnamed (h : m.functions.any (Function.isNamed name) = false) : m.calleesOf name = .ok [] := by
  have none : m.functions.filter (Function.isNamed name) = [] :=
    List.filter_eq_nil_iff.mpr fun f hf => by simpa using List.any_eq_false.mp h f hf
  rw [Module.calleesOf, none]
  rfl

/-- A step leaves fewer functions open, or as many and fewer names waiting. -/
theorem Steps.decreases (h : Steps m w w') : Prod.Lex (· < ·) (· < ·)
    ((openFunctions m w'.known).length, w'.waiting.length) ((openFunctions m w.known).length, w.waiting.length) := by
  cases h with
  | skip => exact .right _ (Nat.lt_succ_self _)
  | @look known rest name called hnew hcalled =>
    cases named : m.functions.any (Function.isNamed name) with
    | true => exact .left _ _ (length_openFunctions_cons_lt hnew named)
    | false =>
      cases (calleesOf_unnamed named).symm.trans hcalled
      rcases Nat.lt_or_eq_of_le (length_openFunctions_cons_le (m := m) name known) with fewer | same
      · exact .left _ _ fewer
      · rw [same]
        exact .right _ (Nat.lt_succ_self _)

theorem exists_ends (m : Module) (w : Worklist) : ∃ found, Ends m w found := by
  cases h : step m w with
  | error e => exact ⟨_, .stop h⟩
  | ok next =>
    cases next with
    | none => exact ⟨_, .done h⟩
    | some w' =>
      have := (step_eq_some.mp h).decreases
      obtain ⟨found, hfound⟩ := exists_ends m w'
      exact ⟨found, .next h hfound⟩
termination_by ((openFunctions m w.known).length, w.waiting.length)
decreasing_by exact this

/-! ## What the loop finds -/

/-- The lists hold the callees of the name. -/
theorem calls_iff {called : List (List Text)} (h : m.calleesOf name = .ok called) (callee : Text) :
    m.Calls name callee ↔ callee ∈ called.flatten := by
  have each := mapM_eq_ok.mp h
  constructor
  · rintro ⟨f, hf, hname, callees, hcallees, hcallee⟩
    have hmem := List.mem_filter.mpr ⟨hf, Function.isNamed_iff.mpr hname⟩
    obtain ⟨callees', hmem', hcallees'⟩ := exists_of_forall₂ each f hmem
    cases hcallees.symm.trans hcallees'
    exact List.mem_flatten.mpr ⟨callees, hmem', hcallee⟩
  · intro hcallee
    obtain ⟨callees, hmem, hcallee⟩ := List.mem_flatten.mp hcallee
    obtain ⟨f, hf, hcallees⟩ := exists_of_forall₂_right each callees hmem
    obtain ⟨hf, hname⟩ := List.mem_filter.mp hf
    exact ⟨f, hf, Function.isNamed_iff.mp hname, callees, hcallees, hcallee⟩

/-- The loop follows the calls: every name at hand is reached from them, and they and the
    callees of known names are at hand. -/
structure Follows (m : Module) (calls : List Text) (w : Worklist) : Prop where
  reached : ∀ n ∈ w.known ++ w.waiting, m.ReachedFrom calls n
  started : calls ⊆ w.known ++ w.waiting
  closed : ∀ n ∈ w.known, ∀ callee, m.Calls n callee → callee ∈ w.known ++ w.waiting
  readable : ∀ n ∈ w.known, ∀ f ∈ m.functions, f.name = .ok n → f.CallsParse

theorem Follows.start (m : Module) (calls : List Text) : Follows m calls (start calls) where
  reached n hn := ⟨n, by simpa [Worklist.start] using hn, .refl⟩
  started n hn := by simpa [Worklist.start] using hn
  closed n hn := by cases hn
  readable n hn := by cases hn

theorem Follows.step (inv : Follows m calls w) (h : Steps m w w') : Follows m calls w' := by
  cases h with
  | @skip known rest name hknown =>
    -- The name that goes is still at hand, because it is known.
    have same : ∀ n, n ∈ known ++ name :: rest ↔ n ∈ known ++ rest := by
      intro n
      simp only [List.mem_append, List.mem_cons]
      constructor
      · rintro (hn | rfl | hn)
        · exact .inl hn
        · exact .inl hknown
        · exact .inr hn
      · exact Or.imp_right .inr
    exact ⟨fun n hn => inv.reached n ((same n).mpr hn), fun n hn => (same n).mp (inv.started hn),
      fun n hn callee hc => (same callee).mp (inv.closed n hn callee hc), inv.readable⟩
  | @look known rest name called hnew hcalled =>
    have nameReached : m.ReachedFrom calls name := inv.reached name (by simp)
    have kept : ∀ n, n ∈ known ++ name :: rest → n ∈ name :: known ++ (called.flatten.reverse ++ rest) := by
      intro n
      simp only [List.mem_append, List.mem_cons]
      tauto
    refine ⟨fun n hn => ?_, fun n hn => kept n (inv.started hn), fun n hn callee hc => ?_, fun n hn f hf hname => ?_⟩
    · by_cases hcall : m.Calls name n
      · obtain ⟨first, hfirst, run⟩ := nameReached
        exact ⟨first, hfirst, run.tail hcall⟩
      · refine inv.reached n ?_
        rw [calls_iff hcalled] at hcall
        simp only [List.mem_append, List.mem_cons, List.mem_reverse] at hn ⊢
        tauto
    · rcases List.mem_cons.mp hn with rfl | hn
      · have := (calls_iff hcalled callee).mp hc
        simp [this]
      · exact kept callee (inv.closed n hn callee hc)
    · rcases List.mem_cons.mp hn with rfl | hn
      · have hmem := List.mem_filter.mpr ⟨hf, Function.isNamed_iff.mpr hname⟩
        obtain ⟨callees, -, hcallees⟩ := exists_of_forall₂ (mapM_eq_ok.mp hcalled) f hmem
        exact Function.readable_of_callees hcallees
      · exact inv.readable n hn f hf hname

/-- What the calls lead to: all names that are reached, or a reached function whose calls
    cannot be read. -/
def Exact (m : Module) (calls : List Text) : Except LinkError (List Text) → Prop
  | .ok known => (∀ n, n ∈ known ↔ m.ReachedFrom calls n) ∧
      ∀ f ∈ m.functions, ∀ n, f.name = .ok n → m.ReachedFrom calls n → f.CallsParse
  | .error _ => ∃ f ∈ m.functions, ∃ n, f.name = .ok n ∧ m.ReachedFrom calls n ∧ ¬ f.CallsParse

theorem Follows.exact_of_done (inv : Follows m calls w) (hdone : w.waiting = []) : Exact m calls (.ok w.known) := by
  obtain ⟨reached, started, closed, readable⟩ := inv
  rw [hdone, List.append_nil] at reached started closed
  have all : ∀ n, m.ReachedFrom calls n → n ∈ w.known := by
    rintro n ⟨first, hfirst, run⟩
    induction run with
    | refl => exact started hfirst
    | tail _ hcall ih => exact closed _ ih _ hcall
  exact ⟨fun n => ⟨reached n, all n⟩, fun f hf n hname hn => readable n (all n hn) f hf hname⟩

theorem Follows.exact_of_stop (inv : Follows m calls w) (h : Worklist.step m w = .error e) : Exact m calls (.error e) := by
  obtain ⟨known, name, rest, rfl, -, hcalled⟩ := step_eq_error h
  by_contra hne
  -- If the calls of every function of the name could be read, the step would succeed.
  have each : ∀ f ∈ m.functions.filter (Function.isNamed name), ∃ callees, f.callees = .ok callees := by
    intro f hf
    obtain ⟨hf, hname⟩ := List.mem_filter.mp hf
    refine Function.callees_isOk.mpr (by_contra fun hparse => hne ⟨f, hf, name, ?_, ?_, hparse⟩)
    · exact Function.isNamed_iff.mp hname
    · exact inv.reached name (by simp)
  obtain ⟨called, hok⟩ := exists_forall₂ each
  cases hcalled.symm.trans (mapM_eq_ok.mpr hok)

theorem Ends.exact (h : Ends m w found) (inv : Follows m calls w) : Exact m calls found := by
  induction h with
  | done hs => exact inv.exact_of_done (step_eq_none.mp hs)
  | stop hs => exact inv.exact_of_stop hs
  | next hs _ ih => exact ih (inv.step (step_eq_some.mp hs))

/-! ## The search that counts its rounds -/

/-- The names that a function has. -/
def named (m : Module) (names : List Text) : List Text :=
  names.filter fun n => m.functions.any (Function.isNamed n)

theorem not_mem_named (h : name ∉ known) : name ∉ named m known :=
  fun hmem => h (List.mem_of_mem_filter hmem)

/-- The search passes over a name that is known or that no function has. -/
theorem reachFrom_skip {fuel : Nat} {reached : List Text}
    (h : name ∈ reached ∨ m.functions.any (Function.isNamed name) = false) :
    Module.reachFrom m.functions fuel reached (name :: rest) = Module.reachFrom m.functions fuel reached rest := by
  have passed : (reached.contains name || !m.functions.any (Function.isNamed name)) = true := by
    rcases h with h | h
    · simp [h]
    · simp [h]
  cases fuel with
  | zero => rfl
  | succ fuel =>
    rw [Module.reachFrom, Module.reachFrom, List.dropWhile_cons, if_pos passed]

theorem reachFrom_look {fuel : Nat} {reached : List Text} (hnew : name ∉ reached)
    (hnamed : m.functions.any (Function.isNamed name) = true) :
    Module.reachFrom m.functions (fuel + 1) reached (name :: rest) = m.calleesOf name >>= fun called =>
      Module.reachFrom m.functions fuel (name :: reached) (called.flatten.reverse ++ rest) := by
  have stops : ¬ (reached.contains name || !m.functions.any (Function.isNamed name)) = true := by simp [hnew, hnamed]
  rw [Module.reachFrom, List.dropWhile_cons, if_neg stops]
  rfl

/-- A new name that a function has takes a round, and leaves enough of them. -/
theorem exists_round {rounds : Nat} (hnew : name ∉ known) (hnamed : m.functions.any (Function.isNamed name) = true)
    (enough : (openFunctions m known).length ≤ rounds) :
    ∃ fuel, rounds = fuel + 1 ∧ (openFunctions m (name :: known)).length ≤ fuel := by
  have fewer := length_openFunctions_cons_lt hnew hnamed
  exact ⟨rounds - 1, by omega, by omega⟩

/-- With a round for each open function the search finds what the loop finds, less the names
    that no function has. -/
theorem reachFrom_of_ends (h : Ends m w found) : ∀ fuel, (openFunctions m w.known).length ≤ fuel →
    Module.reachFrom m.functions fuel (named m w.known) w.waiting = found.map (named m) := by
  induction h with
  | @done w hs =>
    intro fuel _
    rw [step_eq_none.mp hs]
    cases fuel <;> rfl
  | @stop w e hs =>
    intro fuel enough
    obtain ⟨known, name, rest, rfl, hnew, hcalled⟩ := step_eq_error hs
    have hnamed : m.functions.any (Function.isNamed name) = true := by
      by_contra hne
      cases (calleesOf_unnamed (Bool.eq_false_iff.mpr hne)).symm.trans hcalled
    obtain ⟨fuel, rfl, -⟩ := exists_round hnew hnamed enough
    rw [reachFrom_look (not_mem_named hnew) hnamed, hcalled]
    rfl
  | @next w w' found hs _ ih =>
    intro fuel enough
    cases step_eq_some.mp hs with
    | @skip known rest name hknown =>
      rw [← ih fuel enough, reachFrom_skip]
      cases hnamed : m.functions.any (Function.isNamed name) with
      | false => exact .inr rfl
      | true => exact .inl (List.mem_filter.mpr ⟨hknown, hnamed⟩)
    | @look known rest name called hnew hcalled =>
      cases hnamed : m.functions.any (Function.isNamed name) with
      | false =>
        have same : named m (name :: known) = named m known := List.filter_cons_of_neg (by simp [hnamed])
        cases (calleesOf_unnamed hnamed).symm.trans hcalled
        have later := ih fuel (Nat.le_trans (length_openFunctions_cons_le name known) enough)
        rw [same] at later
        rw [← later, reachFrom_skip (.inr hnamed)]
        rfl
      | true =>
        have more : named m (name :: known) = name :: named m known := List.filter_cons_of_pos hnamed
        obtain ⟨fuel, rfl, fewer⟩ := exists_round hnew hnamed enough
        have later := ih fuel fewer
        rw [more] at later
        rw [← later, reachFrom_look (not_mem_named hnew) hnamed, hcalled]
        rfl

end Worklist

end SpirvLink
