/-
  SpirvLink.Proofs.Inlining.Run — a successful run is a chain of passes.

  `Runs` leads from main before the first pass to main without calls, one expansion for
  each pass, and keeps the calls that were replaced. What every pass keeps therefore holds
  of the result by induction on it. Inlining that succeeds is such a run
  (`runs_of_inlineMain`), and its log tells no other copies than those of the run.
-/

import SpirvLink.Proofs.CallGraph
import SpirvLink.Proofs.Inlining.Pass

namespace SpirvLink

variable [KeyOrder] {p : Text} {m m' : Module} {main : Function}

/-! ## A pass looks at the plain functions alone -/

theorem pass_setMain (same : ∀ callee, Inlining.resolve m' callee = Inlining.resolve m callee) (hmain : m'.main? = some main)
    (i : Inliner) (ls ls' : List Line) : i.pass (m'.setMain ls) ⟨ls'⟩ = i.pass m ⟨ls'⟩ := by
  unfold Inliner.pass
  rw [expandLines_congr (fun callee => (Module.resolve_setMain hmain ls callee).trans (same callee))
    fun f _ => KeyOrder.Agree.refl _ f]

theorem pass_log (i : Inliner) (m : Module) (main : Function) :
    (i.pass m main).log = (Inliner.expandLines i.kernelPrefix m i.copied main.lines).log := by
  unfold Inliner.pass
  cases hx : Inliner.expandLines i.kernelPrefix m i.copied main.lines with
  | mk log result => cases result <;> simp [bind, pure]

theorem pass_silent (i : Inliner) (m : Module) (main : Function) :
    (i.pass m main).log.filterMap Event.passDone? = [] := by
  rw [pass_log]
  exact List.filterMap_eq_nil_iff.mpr fun ev hev => (expandLines_log ev hev).1

/-- The loop of passes goes one of three ways: main has no call, the next pass fails, or the
    loop goes on after that pass. -/
theorem passes_cases (same : ∀ callee, Inlining.resolve m' callee = Inlining.resolve m callee) (hmain : m'.main? = some main)
    (fuel done : Nat) (i : Inliner) (ls : List Line) :
    ((∀ l ∈ ls, l.isCall = false) ∧ Inliner.passes (fuel + 1) done i (m'.setMain ls) = ⟨i, m'.setMain ls, [], .ok 0⟩) ∨
      (∃ e, (i.pass m ⟨ls⟩).result = .error e ∧ Inliner.passes (fuel + 1) done i (m'.setMain ls) =
        ⟨i.after (i.pass m ⟨ls⟩).log, m'.setMain ls, (i.pass m ⟨ls⟩).log, .error e⟩) ∨
      ((∃ l ∈ ls, l.isCall = true) ∧ ∃ lines, (i.pass m ⟨ls⟩).result = .ok lines ∧
        let next := Inliner.passes fuel (done + 1) (i.after (i.pass m ⟨ls⟩).log) (m'.setMain lines)
        Inliner.passes (fuel + 1) done i (m'.setMain ls) =
          { next with
            log := (i.pass m ⟨ls⟩).log ++ .passDone (done + 1) :: next.log
            replaced := next.replaced.map (ls.countP Line.isCall + ·) }) := by
  rw [Inliner.passes, Module.main?_setMain hmain]
  by_cases hany : (⟨ls⟩ : Function).hasCalls = true
  · simp only [if_pos hany, pass_setMain same hmain]
    cases hpass : (i.pass m ⟨ls⟩).result with
    | error e => exact Or.inr (Or.inl ⟨e, rfl, rfl⟩)
    | ok lines =>
      simp only [Module.setMain_setMain]
      exact Or.inr (Or.inr ⟨List.any_eq_true.mp hany, lines, rfl, rfl⟩)
  · refine Or.inl ⟨fun l hl => ?_, if_neg hany⟩
    exact Bool.eq_false_iff.mpr fun hcall => hany (List.any_eq_true.mpr ⟨l, hl, hcall⟩)

/-! ## Runs -/

/-- Passes lead from the first lines of main to the last, which have no call. The third
    index holds the calls replaced. Only the number of copies counts for a later pass. -/
inductive Runs (p : Text) (m : Module) : List Text → List Line → List Line → List Line → Prop
  | done {copied : List Text} {ls : List Line} : (∀ l ∈ ls, l.isCall = false) → Runs p m copied ls [] ls
  | pass {copied copied' copied'' : List Text} {ls calls last : List Line} {e : Expansion} :
      Expands p m copied ls copied' e → (∀ name, copied''.count name = copied'.count name) →
      Runs p m copied'' e.renamed calls last → Runs p m copied ls (ls.filter Line.isCall ++ calls) last

theorem Runs.clean {copied : List Text} {ls calls last : List Line} (h : Runs p m copied ls calls last) :
    ∀ l ∈ last, l.isCall = false := by
  induction h with
  | done hls => exact hls
  | pass _ _ _ ih => exact ih

/-- Passes over the main of a module are a run in any module that resolves calls as it does. -/
theorem runs_of_passes (t : m.Tidy) (same : ∀ callee, Inlining.resolve m' callee = Inlining.resolve m callee)
    (hmain : m'.main? = some main) : ∀ (fuel done : Nat) (i : Inliner)
    (ls : List Line) (n : Nat), Sound m i.copied ls →
    (Inliner.passes fuel done i (m'.setMain ls)).replaced = .ok n →
    ∃ calls last, Runs i.kernelPrefix m i.copied ls calls last ∧
      (Inliner.passes fuel done i (m'.setMain ls)).module = m'.setMain last ∧
      ∀ l callee copy, .copying l callee copy ∈ (Inliner.passes fuel done i (m'.setMain ls)).log →
        l ∈ calls ∧ ∃ f, Inlining.resolve m callee = .ok f ∧ ∃ call, Call.ofLine l = .ok call ∧ call.callee = callee := by
  intro fuel
  induction fuel with
  | zero => exact fun done i ls n _ h => (by cases h)
  | succ fuel ih =>
    intro done i ls n sound h
    obtain ⟨none, heq⟩ | ⟨e, -, heq⟩ | ⟨-, lines, hpass, heq⟩ := passes_cases same hmain fuel done i ls <;> rw [heq] at h ⊢
    · exact ⟨[], ls, .done none, rfl, fun l callee copy hev => (by cases hev)⟩
    · cases h
    · obtain ⟨copied', e, he, rfl⟩ := (pass_eq_ok t sound.spaced).mp hpass
      have after : ∀ name, (i.after (i.pass m ⟨ls⟩).log).copied.count name = copied'.count name := by
        intro name
        rw [← he.count_log name, Inliner.after, pass_log]
      obtain ⟨k, hk, -⟩ := map_eq_ok.mp h
      obtain ⟨calls, last, hruns, hmodule, hlog⟩ := ih (done + 1) (i.after (i.pass m ⟨ls⟩).log) e.renamed k
        ((sound.pass t he).mono fun name => Nat.le_of_eq (after name).symm) hk
      refine ⟨_, last, .pass he after hruns, hmodule, fun l callee copy hev => ?_⟩
      rcases List.mem_append.mp hev with hev | hev
      · rw [pass_log] at hev
        obtain ⟨hl, call, f, hcall, hline, hcallee, hres⟩ := (expandLines_log _ hev).2 l callee copy rfl
        exact ⟨List.mem_append_left _ (List.mem_filter.mpr ⟨hl, hcall⟩), f, hres, call, hline, hcallee⟩
      · rcases List.mem_cons.mp hev with heq | hev
        · cases heq
        · exact (hlog l callee copy hev).imp_left (List.mem_append_right _)

theorem checkCallGraph_of_inlineMain {i : Inliner} {n : Nat} (h : (i.inlineMain m).replaced = .ok n) :
    m.checkCallGraph = .ok () := by
  unfold Inliner.inlineMain at h
  split at h
  · cases h
  · assumption

theorem runs_of_resolve (t : m.Tidy) (same : ∀ callee, Inlining.resolve m' callee = Inlining.resolve m callee)
    (hmain : m.main? = some main) (hmain' : m'.main? = some main) {n : Nat}
    (h : ((Inliner.ofPrefix p).inlineMain m').replaced = .ok n) :
    ∃ calls last, Runs p m [] main.lines calls last ∧
      ((Inliner.ofPrefix p).inlineMain m').module = m'.setMain last ∧
      ∀ l callee copy, .copying l callee copy ∈ ((Inliner.ofPrefix p).inlineMain m').log →
        l ∈ calls ∧ ∃ f, Inlining.resolve m callee = .ok f ∧ ∃ call, Call.ofLine l = .ok call ∧ call.callee = callee := by
  have check := checkCallGraph_of_inlineMain h
  rw [Inliner.inlineMain, check] at h ⊢
  have runs := runs_of_passes t same hmain' (Inliner.passLimit m') 0 (.ofPrefix p) main.lines n (Sound.start t hmain)
  rw [Module.setMain_self hmain'] at runs
  exact runs h

/-- Inlining that succeeds has run passes over main, and told of no other copies. -/
theorem runs_of_inlineMain (t : m.Tidy) (hmain : m.main? = some main) {n : Nat}
    (h : ((Inliner.ofPrefix p).inlineMain m).replaced = .ok n) :
    ∃ calls last, Runs p m [] main.lines calls last ∧
      ((Inliner.ofPrefix p).inlineMain m).module = m.setMain last ∧
      ∀ l callee copy, .copying l callee copy ∈ ((Inliner.ofPrefix p).inlineMain m).log →
        l ∈ calls ∧ ∃ f, Inlining.resolve m callee = .ok f ∧ ∃ call, Call.ofLine l = .ok call ∧ call.callee = callee :=
  runs_of_resolve t (fun _ => rfl) hmain hmain h

/-- Inlining succeeds only where every function is declared and its calls can be read. -/
theorem readable_of_inlineMain {i : Inliner} {n : Nat} (h : (i.inlineMain m).replaced = .ok n) :
    ∀ f ∈ m.functions, (∃ name, f.name = .ok name) ∧ ∃ callees, f.callees = .ok callees := by
  have check := checkCallGraph_of_inlineMain h
  obtain ⟨g, hg, -⟩ := bind_eq_ok.mp check
  intro f hf
  obtain ⟨node, -, hn⟩ := exists_of_forall₂ (Module.describes_of_ofModule hg) f hf
  exact ⟨⟨_, hn.1⟩, _, hn.2⟩

end SpirvLink
