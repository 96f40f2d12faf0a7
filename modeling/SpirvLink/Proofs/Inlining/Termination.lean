/-
  SpirvLink.Proofs.Inlining.Termination — the passes end, and when they succeed.

  The passes follow the unfolding of main's calls level by level (`passes_follow`): each
  done pass stands on one more function of an acyclic call graph, so the limit on passes is
  never met.

  Results: `inlining_terminates`. There are at most as many passes as plain functions;
  inlining succeeds exactly when the call graph is acyclic and every call met can be
  replaced; it then counts the calls of the unfolding, and main has no call left.
-/

import SpirvLink.Proofs.Inlining.Run
import SpirvLink.Proofs.Inlining.Unfolding

namespace SpirvLink

/-! ## Failures other than the limit -/

/-- The step does not fail by the limit on passes. -/
def WithinLimit {α : Type} (x : Except LinkError α) : Prop :=
  ∀ done, x ≠ .error (.endlessInlining done)

namespace WithinLimit

variable {α β : Type}

theorem ok (a : α) : WithinLimit (.ok a : Except LinkError α) :=
  fun _ h => (by cases h)

theorem bind {x : Except LinkError α} {f : α → Except LinkError β} (hx : WithinLimit x)
    (hf : ∀ a, WithinLimit (f a)) : WithinLimit (x >>= f) := by
  cases x with
  | error e => exact fun done h => hx done (by cases h; rfl)
  | ok a => exact hf a

theorem mapM {f : α → Except LinkError β} (hf : ∀ a, WithinLimit (f a)) :
    ∀ xs : List α, WithinLimit (xs.mapM f)
  | [] => ok _
  | x :: xs => by
    rw [List.mapM_cons]
    exact (hf x).bind fun _ => (mapM hf xs).bind fun _ => ok _

theorem map {x : Except LinkError α} (f : α → β) (hx : WithinLimit x) : WithinLimit (x.map f) := by
  cases x with
  | error e => exact fun done h => hx done (by cases h; rfl)
  | ok a => exact ok (f a)

theorem declaration (f : Function) : WithinLimit f.declaration := by
  intro done h
  unfold Function.declaration at h
  split at h
  · cases h
  · split at h <;> cases h

theorem name (f : Function) : WithinLimit f.name :=
  (declaration f).bind fun first => by
    cases first.defined? with
    | none => exact fun _ h => (by cases h)
    | some id => exact ok id

theorem parameters (f : Function) : WithinLimit f.parameters :=
  mapM (fun l => by cases l.defined? <;> exact fun _ h => (by cases h)) _

theorem body (f : Function) : WithinLimit f.body :=
  (name f).bind fun _ => by
    intro done h
    split at h
    · cases h
    · split at h <;> cases h

theorem returnsVoid (p : Text) (f : Function) : WithinLimit (f.returnsVoid p) := by
  have returnType : WithinLimit f.returnType := (declaration f).bind fun first => by
    cases first.rhsIds with
    | nil => exact fun _ h => (by cases h)
    | cons id _ => exact ok id
  refine returnType.bind fun type => ?_
  by_cases hvoid : (type != Function.voidType && type != Function.voidTypeWith p) = true
  · rw [if_pos hvoid]
    exact ok false
  · rw [if_neg hvoid]
    split
    · exact ok _
    · exact (name f).bind fun _ _ h => (by cases h)

theorem resultRenames (p : Text) (f : Function) (id : Text) (call : Call) (rename : Text → Text) :
    WithinLimit (Inlining.resultRenames p f id call rename) := by
  unfold Inlining.resultRenames
  split
  · exact ok _
  · refine (returnsVoid p f).bind fun void => ?_
    cases void
    · exact fun _ h => (by cases h)
    · exact ok _

theorem logged {x : Logged α} {f : α → Logged β} (hx : WithinLimit x.result)
    (hf : ∀ a, WithinLimit (f a).result) : WithinLimit (x >>= f).result := by
  rw [Logged.result_bind]
  exact hx.bind hf

theorem copyBody [KeyOrder] (p : Text) (f : Function) (call : Call) (copy : Nat) :
    WithinLimit (Inlining.copyBody p f call copy).result := by
  refine logged (name f) fun id => logged (parameters f) fun ps => ?_
  by_cases harity : ps.length ≠ call.arguments.length
  · rw [if_pos harity]
    exact fun _ h => (by cases h)
  · rw [if_neg harity]
    exact logged (body f) fun _ => logged (ok ()) fun _ =>
      logged (resultRenames p f id call _) fun _ => logged (ok ()) fun _ => ok _

theorem expandLines [KeyOrder] (p : Text) (m : Module) : ∀ (copied : List Text) (ls : List Line),
    WithinLimit (Inliner.expandLines p m copied ls).result
  | _, [] => ok _
  | copied, l :: ls => by
    rw [Inliner.expandLines]
    by_cases hcall : l.isCall = true
    · rw [if_pos hcall]
      have ofLine : WithinLimit (Call.ofLine l) := by
        intro done h
        unfold Call.ofLine at h
        split at h <;> cases h
      refine logged ofLine fun call => ?_
      have resolve : WithinLimit (Inlining.resolve m call.callee) := by
        intro done h
        unfold Inlining.resolve at h
        split at h <;> cases h
      exact logged resolve fun f => logged (ok ()) fun _ =>
        logged (copyBody p f call _) fun _ => logged (expandLines p m _ ls) fun _ => ok _
    · rw [if_neg hcall]
      exact logged (expandLines p m copied ls) fun _ => ok _

theorem pass [KeyOrder] (i : Inliner) (m : Module) (main : Function) : WithinLimit (i.pass m main).result :=
  logged (expandLines _ m _ _) fun _ => ok _

end WithinLimit

/-! ## The passes follow the unfolding -/

section Passes

variable {p : Text} {m : Module} {main : Function}

theorem replaces_unique {ss : List CallSite} {fs gs : List Function} (hf : List.Forall₂ (m.Replaces p) ss fs)
    (hg : List.Forall₂ (m.Replaces p) ss gs) : fs = gs := by
  induction hf generalizing gs with
  | nil =>
    cases hg
    rfl
  | cons h _ ih =>
    cases hg with
    | cons h' hg =>
      cases h.1.symm.trans h'.1
      rw [ih hg]

theorem length_sites {ls : List Line} (hcalls : ∀ l ∈ ls, l.isCall = true → ∃ call, Call.ofLine l = .ok call) :
    (ls.filterMap Line.site?).length = ls.countP Line.isCall := by
  induction ls with
  | nil => rfl
  | cons l ls ih =>
    have ih := ih fun k hk => hcalls k (List.mem_cons_of_mem l hk)
    cases hcall : l.isCall with
    | false => rw [List.filterMap_cons_none (site?_of_not_call hcall), ih, List.countP_cons_of_neg (by simp [hcall])]
    | true =>
      obtain ⟨call, hc⟩ := hcalls l (List.mem_cons_self ..) hcall
      rw [List.filterMap_cons_some (site?_of_call hcall hc), List.length_cons, ih, List.countP_cons_of_pos hcall]

/-- What the passes from main with these calls lead to, after so many passes. -/
structure Follows (p : Text) (m : Module) (done : Nat) (sites : List CallSite) (run : Inlined) : Prop where
  bounded : (run.log.filterMap Event.passDone?).length + done ≤ m.plainFunctions.length
  limit : WithinLimit run.replaced
  counts : ∀ n, run.replaced = .ok n ↔ m.Unfolds p sites n
  clean : ∀ n, run.replaced = .ok n → ∃ lines, run.module = m.setMain lines ∧ ∀ l ∈ lines, l.isCall = false

/-- A pass over calls that cannot all be replaced fails, and no passes follow. -/
theorem Follows.failed [KeyOrder] {done : Nat} {i : Inliner} {ls : List Line} {e : LinkError} (m' : Module) (t : m.Tidy)
    (ready : Ready m i.copied ls) (hle : done ≤ m.plainFunctions.length) (hpass : (i.pass m ⟨ls⟩).result = .error e) :
    Follows i.kernelPrefix m done (ls.filterMap Line.site?)
      ⟨i.after (i.pass m ⟨ls⟩).log, m', (i.pass m ⟨ls⟩).log, .error e⟩ := by
  have fails : ∀ n, ¬ m.Unfolds i.kernelPrefix (ls.filterMap Line.site?) n := by
    intro n h
    obtain ⟨fs, -, hfs, -⟩ := Module.unfolds_iff_level.mp h
    obtain ⟨copied', e, he⟩ := exists_expands_of_replaces i.copied
      (fun l hl hcall => (ready.calls l hl hcall).imp fun _ h => h.1) hfs
    rw [(pass_eq_ok t ready.spaced).mpr ⟨copied', e, he, rfl⟩] at hpass
    cases hpass
  refine ⟨?_, ?_, fun n => ⟨fun h => (by cases h), fun h => absurd h (fails n)⟩, fun n h => (by cases h)⟩
  · show ((i.pass m ⟨ls⟩).log.filterMap Event.passDone?).length + done ≤ _
    rw [pass_silent]
    simpa using hle
  · intro k h
    cases h
    exact WithinLimit.pass i m ⟨ls⟩ k hpass

/-- A pass goes on to the calls of the bodies that it copies. -/
theorem Follows.level {done k : Nat} {sites : List CallSite} {fs : List Function} {log : List Event} {run : Inlined}
    (silent : log.filterMap Event.passDone? = []) (hk : k = sites.length) (hfs : List.Forall₂ (m.Replaces p) sites fs)
    (next : Follows p m (done + 1) (fs.flatMap Function.sites) run) : Follows p m done sites
      { run with
        log := log ++ .passDone (done + 1) :: run.log
        replaced := run.replaced.map (k + ·) } := by
  refine ⟨?_, next.limit.map _, fun n => ?_, fun n h => ?_⟩
  · have := next.bounded
    simp only [List.filterMap_append, silent, List.nil_append,
      List.filterMap_cons_some (show Event.passDone? (.passDone (done + 1)) = some (done + 1) from rfl),
      List.length_cons]
    omega
  · rw [Module.unfolds_iff_level, map_eq_ok]
    constructor
    · rintro ⟨n, hn, rfl⟩
      exact ⟨fs, n, hfs, (next.counts n).mp hn, by rw [hk]⟩
    · rintro ⟨gs, n, hgs, hn, rfl⟩
      cases replaces_unique hfs hgs
      exact ⟨n, (next.counts n).mpr hn, by rw [hk]⟩
  · obtain ⟨n, hn, -⟩ := map_eq_ok.mp h
    exact next.clean n hn

/-- Main without calls is done. -/
theorem Follows.done {done : Nat} {i : Inliner} {ls : List Line} (none : ∀ l ∈ ls, l.isCall = false)
    (hle : done ≤ m.plainFunctions.length) :
    Follows p m done (ls.filterMap Line.site?) ⟨i, m.setMain ls, [], .ok 0⟩ := by
  have nil : ls.filterMap Line.site? = [] :=
    List.filterMap_eq_nil_iff.mpr fun l hl => site?_of_not_call (none l hl)
  rw [nil]
  refine ⟨by simpa using hle, WithinLimit.ok 0, fun n => ⟨fun h => ?_, fun h => ?_⟩, fun n _ => ⟨ls, rfl, none⟩⟩
  · cases h
    exact .nil
  · cases h
    rfl

theorem passes_follow [KeyOrder] (t : m.Tidy) (r : m.Readable) (acyclic : m.CallsAcyclic) (hmain : m.main? = some main) :
    ∀ (fuel done : Nat) (i : Inliner) (ls : List Line), Ready m i.copied ls →
      (∀ s ∈ ls.filterMap Line.site?, m.Deep done s) → done ≤ m.plainFunctions.length →
      m.plainFunctions.length < fuel + done →
      Follows i.kernelPrefix m done (ls.filterMap Line.site?) (Inliner.passes fuel done i (m.setMain ls)) := by
  intro fuel
  induction fuel with
  | zero => exact fun done i ls _ _ hle hlt => absurd hlt (by omega)
  | succ fuel ih =>
    intro done i ls ready deep hle hlt
    have hcalls : ∀ l ∈ ls, l.isCall = true → ∃ call, Call.ofLine l = .ok call := fun l hl hcall =>
      (ready.calls l hl hcall).imp fun _ h => h.1
    obtain ⟨none, heq⟩ | ⟨e, hpass, heq⟩ | ⟨⟨l, hl, hcall⟩, lines, hpass, heq⟩ :=
      passes_cases (fun _ => rfl) hmain fuel done i ls <;> rw [heq]
    · exact .done none hle
    · exact .failed _ t ready hle hpass
    · obtain ⟨copied', e, he, rfl⟩ := (pass_eq_ok t ready.spaced).mp hpass
      obtain ⟨fs, hfs, hsites, hplain⟩ := he.sites t r
      have renamed := (he.renamed_sites t r ready).trans hsites
      have after : ∀ name, copied'.count name ≤ (i.after (i.pass m ⟨ls⟩).log).copied.count name := by
        intro name
        rw [← he.count_log name]
        exact Nat.le_of_eq (by rw [Inliner.after, pass_log])
      have deep' : ∀ s ∈ e.renamed.filterMap Line.site?, m.Deep (done + 1) s := by
        intro s hs
        rw [renamed] at hs
        obtain ⟨f, hf, hs⟩ := List.mem_flatMap.mp hs
        obtain ⟨s₀, hs₀, hr⟩ := exists_of_forall₂_right hfs f hf
        exact (deep s₀ hs₀).succ r acyclic hr hs
      have hlt' : done < m.plainFunctions.length := by
        obtain ⟨call, hc⟩ := hcalls l hl hcall
        have hs := List.mem_filterMap.mpr ⟨l, hl, site?_of_call hcall hc⟩
        obtain ⟨f, -, hr⟩ := exists_of_forall₂ hfs _ hs
        exact (deep _ hs).lt acyclic hr
      have next := ih (done + 1) (i.after (i.pass m ⟨ls⟩).log) e.renamed ((ready.pass t r he).mono after)
        deep' hlt' (by omega)
      rw [renamed] at next
      exact next.level (pass_silent i m ⟨ls⟩) (length_sites hcalls).symm hfs

/-! ## Inlining -/

theorem inlineMain_eq [KeyOrder] (acyclic : m.CallsAcyclic) (t : m.Tidy) (r : m.Readable) (i : Inliner) :
    i.inlineMain m = Inliner.passes (Inliner.passLimit m) 0 i m := by
  rw [Inliner.inlineMain, (r.checkCallGraph_iff t).mpr acyclic]

/-- Inlining ends after at most as many passes as there are plain functions. It succeeds
    exactly when no function reaches itself through calls and every call met names one
    function of which a copy can be made. Then it has counted the calls of the unfolding,
    and main has no call left. -/
theorem inlining_terminates [KeyOrder] (t : m.Tidy) (r : m.Readable) (hmain : m.main? = some main) (p : Text) :
    let run := (Inliner.ofPrefix p).inlineMain m
    (run.log.filterMap Event.passDone?).length ≤ m.plainFunctions.length ∧
      (∀ done, run.replaced ≠ .error (.endlessInlining done)) ∧
      ((∃ n, run.replaced = .ok n) ↔ m.CallsAcyclic ∧ ∀ s, m.Met main s → ∃ f, m.Replaces p s f) ∧
      ∀ n, run.replaced = .ok n → m.Unfolds p (main.lines.filterMap Line.site?) n ∧
        ∃ lines, run.module = m.setMain lines ∧ ∀ l ∈ lines, l.isCall = false := by
  intro run
  by_cases acyclic : m.CallsAcyclic
  · have limit : m.plainFunctions.length < Inliner.passLimit m + 0 := by
      have : m.plainFunctions.length ≤ m.blocks.length := by
        rw [Module.plainFunctions, List.length_map]
        exact List.length_filter_le ..
      unfold Inliner.passLimit
      omega
    have follows := passes_follow t r acyclic hmain (Inliner.passLimit m) 0 (.ofPrefix p) main.lines
      (Ready.start t r hmain) (fun s _ => Module.deep_zero s) (Nat.zero_le _) limit
    rw [Module.setMain_self hmain, ← inlineMain_eq acyclic t r] at follows
    refine ⟨follows.bounded, follows.limit, ?_, fun n hn => ⟨(follows.counts n).mp hn, follows.clean n hn⟩⟩
    rw [← Module.unfolds_iff_met (p := p) r acyclic]
    constructor
    · rintro ⟨n, hn⟩
      exact ⟨acyclic, n, (follows.counts n).mp hn⟩
    · rintro ⟨-, n, hn⟩
      exact ⟨n, (follows.counts n).mpr hn⟩
  · cases hcheck : m.checkCallGraph with
    | ok u =>
      cases u
      exact absurd ((r.checkCallGraph_iff t).mp hcheck) acyclic
    | error e =>
      obtain ⟨chain, rfl⟩ := r.checkCallGraph_error hcheck
      have failed : run = ⟨.ofPrefix p, m, [], .error (.recursiveCallChain chain)⟩ := by
        show (Inliner.ofPrefix p).inlineMain m = _
        rw [Inliner.inlineMain, hcheck]
      rw [failed]
      refine ⟨Nat.zero_le _, fun done h => (by cases h), ⟨fun h => ?_, fun h => absurd h.1 acyclic⟩, fun n h => (by cases h)⟩
      obtain ⟨n, h⟩ := h
      cases h

attribute [local instance] KeyOrder.listed

/-- Three calls are replaced in the two passes that nested calls need. -/
theorem inlining_terminates_nested :
    Module.nestedCalls.Tidy ∧ Module.nestedCalls.Readable ∧ ∃ main, Module.nestedCalls.main? = some main ∧
      let run := (Inliner.ofPrefix "rs_linker_".toList).inlineMain Module.nestedCalls
      run.log.filterMap Event.passDone? = [1, 2] ∧ run.replaced = .ok 3 ∧
        Module.nestedCalls.CallsAcyclic ∧
        Module.nestedCalls.Unfolds "rs_linker_".toList (main.lines.filterMap Line.site?) 3 := by
  have readable : Module.nestedCalls.Readable := by decide +kernel
  have run : ((Inliner.ofPrefix "rs_linker_".toList).inlineMain Module.nestedCalls).replaced = .ok 3 := by
    decide +kernel
  obtain ⟨-, -, hiff, hok⟩ := inlining_terminates Module.nestedCalls_tidy readable rfl "rs_linker_".toList
  exact ⟨Module.nestedCalls_tidy, readable, _, rfl, by decide +kernel, run, (hiff.mp ⟨3, run⟩).1, (hok 3 run).1⟩

end Passes

end SpirvLink
