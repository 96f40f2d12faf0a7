/-
  SpirvLink.Proofs.Inlining.SingleAssignment — main after inlining.

  A name that main has lost, that no function uses and that no copy brings in stays away
  (`Absent.pass`). The result of a call that returned a value is such a name after its pass,
  and so is every parameter.

  Results: `inlining_keeps_single_assignment`. Where functions stay apart, no identifier is
  defined by two lines of the new main or by main and another block, and neither a
  parameter of a function nor the result of a replaced call is left in it.
-/

import SpirvLink.Proofs.Inlining.Hygiene
import SpirvLink.Proofs.Inlining.Run

namespace SpirvLink

variable {p : Text} {m : Module} {copied copied' : List Text} {ls calls last : List Line} {e : Expansion} {id : Text}

/-! ## Names that stay away -/

/-- Main does not use the name, and no copy can bring it in. -/
structure Absent (m : Module) (copied : List Text) (ls : List Line) (id : Text) : Prop where
  unused : ∀ l ∈ ls, id ∉ l.ids
  past : ¬ m.Upcoming copied id
  own : ¬ m.Foreign id

theorem Absent.pass [KeyOrder] (t : m.Tidy) (a : m.Apart) (hy : Hygienic m copied ls) (h : Expands p m copied ls copied' e)
    (ha : Absent m copied ls id) : Absent m copied' e.renamed id := by
  refine ⟨fun l hl hid => ?_, fun hu => ha.past (hu.anti h.count_le), ha.own⟩
  obtain ⟨-, ⟨k, hk, hid⟩ | ⟨hm, -⟩ | hf⟩ := h.renamed_ids t a hy hl hid
  · exact ha.unused k hk hid
  · exact ha.past hm.1
  · exact ha.own hf

theorem Expands.result_mem_olds [KeyOrder] (h : Expands p m copied ls copied' e) {l : Line} (hl : l ∈ ls)
    (hcall : l.isCall = true) {call : Call} (hline : Call.ofLine l = .ok call) {f : Function}
    (hres : Inlining.resolve m call.callee = .ok f) (hv : f.returnValue?.isSome = true) :
    call.result ∈ e.renames.map Rename.old := by
  obtain ⟨call', g, copy, c⟩ := h.exists_replacement hl hcall
  cases hline.symm.trans c.read
  cases hres.symm.trans c.callee
  obtain ⟨value, hvalue⟩ := Option.isSome_iff_exists.mp hv
  refine List.mem_map.mpr ⟨⟨call.result, f.nameIn copy value⟩, c.renames (List.mem_append_right _ ?_), rfl⟩
  rw [Function.returned, hvalue]
  exact List.mem_singleton.mpr rfl

/-- The result of a call that returns a value is absent after the pass that replaces it. -/
theorem Expands.result_absent [KeyOrder] (t : m.Tidy) (a : m.Apart) (hy : Hygienic m copied ls)
    (h : Expands p m copied ls copied' e) {l : Line} (hl : l ∈ ls) (hcall : l.isCall = true) {call : Call}
    (hline : Call.ofLine l = .ok call) {f : Function} (hres : Inlining.resolve m call.callee = .ok f)
    (hv : f.returnValue?.isSome = true) : Absent m copied' e.renamed call.result := by
  obtain ⟨past, own, -⟩ := hy.result hl (Line.result?_of_call hcall hline)
  refine ⟨fun k hk hid => ?_, fun hu => past (hu.anti h.count_le), own⟩
  exact (h.renamed_ids t a hy hk hid).1 (h.result_mem_olds hl hcall hline hres hv)

/-! ## What a run keeps -/

/-- What the passes of a run make of main: it stays hygienic, names that are absent stay
    away, results of calls go, and what is new are names of copies and foreign names. -/
structure Kept (m : Module) (copied : List Text) (ls calls last : List Line) : Prop where
  hygienic : ∃ copied', Hygienic m copied' last
  absent : ∀ id, Absent m copied ls id → ∀ l ∈ last, id ∉ l.ids
  results : ∀ l ∈ calls, ∀ call, Call.ofLine l = .ok call → ∀ f, Inlining.resolve m call.callee = .ok f →
    f.returnValue?.isSome = true → ∀ k ∈ last, call.result ∉ k.ids
  defined : ∀ id ∈ last.filterMap Line.defined?, id ∈ ls.filterMap Line.defined? ∨ m.Upcoming copied id
  used : ∀ l ∈ last, ∀ id ∈ l.ids, (∃ k ∈ ls, id ∈ k.ids) ∨ m.Upcoming copied id ∨ m.Foreign id

theorem Runs.kept [KeyOrder] (t : m.Tidy) (a : m.Apart) (ready : ∀ f ∈ m.plainFunctions, ArgumentsReady f.lines)
    (h : Runs p m copied ls calls last) (hy : Hygienic m copied ls) : Kept m copied ls calls last := by
  induction h with
  | @done copied ls _ =>
    exact ⟨⟨copied, hy⟩, fun id ha => ha.unused, fun l hl => (by cases hl), fun id hid => Or.inl hid,
      fun l hl id hid => Or.inl ⟨l, hl, hid⟩⟩
  | @pass copied copied' copied'' ls calls last e he hcount _ ih =>
    have next := ih ((hy.pass t a ready he).mono fun name => Nat.le_of_eq (hcount name).symm)
    have later : ∀ {id}, m.Upcoming copied'' id → m.Upcoming copied id := fun hu =>
      hu.anti fun name => (hcount name).symm ▸ he.count_le name
    have moved : ∀ {id}, Absent m copied' e.renamed id → Absent m copied'' e.renamed id := fun ha =>
      ⟨ha.unused, fun hu => ha.past (hu.anti fun name => Nat.le_of_eq (hcount name).symm), ha.own⟩
    refine ⟨next.hygienic, fun id ha => next.absent id (moved (ha.pass t a hy he)), ?_, ?_, ?_⟩
    · intro l hl call hline f hres hv
      rcases List.mem_append.mp hl with hl | hl
      · obtain ⟨hl, hcall⟩ := List.mem_filter.mp hl
        exact next.absent _ (moved (he.result_absent t a hy hl hcall hline hres hv))
      · exact next.results l hl call hline f hres hv
    · intro id hid
      rcases next.defined id hid with hid | hu
      · rw [he.defined_renamed t hy.toSound] at hid
        rcases he.defines t hid with ⟨l, hl, -, hd⟩ | ⟨hm, -⟩
        · exact Or.inl (List.mem_filterMap.mpr ⟨l, hl, hd⟩)
        · exact Or.inr hm.1
      · exact Or.inr (later hu)
    · intro l hl id hid
      rcases next.used l hl id hid with ⟨k, hk, hid⟩ | hu | hf
      · obtain ⟨-, hfrom⟩ := he.renamed_ids t a hy hk hid
        exact hfrom.imp_right (Or.imp_left fun hm => hm.1.1)
      · exact Or.inr (Or.inl (later hu))
      · exact Or.inr (Or.inr hf)

/-! ## Main after inlining -/

/-- No block but main and the plain functions defines what copies bring in. -/
theorem Module.Upcoming.not_defined (t : m.Tidy) (h : m.Upcoming copied id) {b : Block} (hb : b ∈ m.blocks)
    (hkind : b.kind ≠ .function) : id ∉ b.lines.filterMap Line.defined? := by
  intro hid
  rcases h.owned_or with ⟨f, hf, ho⟩ | hs
  · rw [t.block_of_owned hf ho hb hid] at hkind
    exact hkind rfl
  · obtain ⟨l, hl, hd⟩ := List.mem_filterMap.mp hid
    have hline : l ∈ m.lines := List.mem_flatMap.mpr ⟨b, hb, hl⟩
    rw [t.unsuffixed l hline id ((t.spaced l hline).mem_ids_of_defined hd)] at hs
    cases hs

/-- Main shares no definition with another block. -/
theorem Module.Tidy.main_apart (t : m.Tidy) {main : Function} (hmain : m.main? = some main) {b : Block}
    (hb : b ∈ m.otherBlocks) (hid : id ∈ main.lines.filterMap Line.defined?) :
    id ∉ b.lines.filterMap Line.defined? := by
  obtain ⟨before, after, hm, hbefore, -⟩ := Module.exists_of_main? hmain
  have others : m.otherBlocks = before ++ after := by
    rw [Module.otherBlocks, hm, List.eraseP_append_right _ fun b hb => by simp [hbefore b hb],
      List.eraseP_cons_of_pos rfl]
  have once := t.once
  rw [Module.DefinesOnce, Module.lines, hm, List.flatMap_append, List.flatMap_cons, List.filterMap_append,
    List.filterMap_append, List.nodup_append, List.nodup_append] at once
  obtain ⟨-, ⟨-, -, afterApart⟩, beforeApart⟩ := once
  intro hidb
  obtain ⟨l, hl, hd⟩ := List.mem_filterMap.mp hidb
  rw [others] at hb
  rcases List.mem_append.mp hb with hb | hb
  · exact beforeApart id (List.mem_filterMap.mpr ⟨l, List.mem_flatMap.mpr ⟨b, hb, hl⟩, hd⟩) id
      (List.mem_append_left _ hid) rfl
  · exact afterApart id hid id (List.mem_filterMap.mpr ⟨l, List.mem_flatMap.mpr ⟨b, hb, hl⟩, hd⟩) rfl

/-- No name of a parameter is left, whichever number stands behind it. -/
theorem Kept.no_parameter (t : m.Tidy) (k : Kept m [] ls calls last)
    (unsuffixed : ∀ l ∈ ls, ∀ id ∈ l.ids, Inlining.isCopyName id = false) {f : Function}
    (hf : f ∈ m.plainFunctions) {q : Text} (hq : q ∈ f.parameterIds) {l : Line} (hl : l ∈ last) :
    q ∉ l.ids ∧ ∀ copy, q ++ Inlining.copySuffix copy ∉ l.ids := by
  obtain ⟨copied', hy⟩ := k.hygienic
  have ho := Function.mem_owned_of_parameter hq
  refine ⟨fun hid => hy.noParameter l hl q hid ⟨f, hf, q, hq, 1, Nat.one_pos, (Function.nameIn_first q).symm⟩,
    fun copy hid => ?_⟩
  have named := Inlining.isCopyName_append_copySuffix q copy
  rcases k.used l hl _ hid with ⟨j, hj, hid⟩ | hu | hforeign
  · rw [unsuffixed j hj _ hid] at named
    cases named
  · -- Only the second and later copies have a number, and that one is the name of a parameter.
    obtain ⟨g, hg, name, -, d, hd, copy', hlt, heq⟩ := hu
    rcases Nat.lt_or_ge 1 copy' with hc | hc
    · rw [Function.nameIn_later hd hc] at heq
      obtain ⟨rfl, rfl⟩ := Inlining.append_copySuffix_injective heq
      exact hy.noParameter l hl _ hid ⟨f, hf, q, hq, copy, by omega, (Function.nameIn_later ho hc).symm⟩
    · obtain rfl : copy' = 1 := by
        have := Nat.zero_lt_of_lt hlt
        omega
      rw [Function.nameIn_first] at heq
      rw [heq, t.owned_unsuffixed hg hd] at named
      cases named
  · rw [hforeign.unsuffixed t] at named
    cases named

/-- After inlining main defines each identifier once and none that a block other than the
    plain functions defines. No parameter is left in it, plain or with a number behind it,
    nor the result of any replaced call whose callee returned a value. -/
theorem inlining_keeps_single_assignment [KeyOrder] (t : m.Tidy) (a : m.Apart)
    (ready : ∀ f ∈ m.functions, ArgumentsReady f.lines) {main : Function} (hmain : m.main? = some main) {n : Nat} :
    let run := (Inliner.ofPrefix p).inlineMain m
    run.replaced = .ok n → ∃ last, run.module.main? = some last ∧
      (last.lines.filterMap Line.defined?).Nodup ∧
      (∀ b ∈ run.module.otherBlocks, b.kind ≠ .function → ∀ id ∈ b.lines.filterMap Line.defined?,
        id ∉ last.lines.filterMap Line.defined?) ∧
      (∀ f ∈ run.module.plainFunctions, ∀ q ∈ f.parameterIds, ∀ l ∈ last.lines,
        q ∉ l.ids ∧ ∀ copy, q ++ Inlining.copySuffix copy ∉ l.ids) ∧
      ∀ l callee copy, .copying l callee copy ∈ run.log →
        ∀ f, m.plainFunctions.filter (Function.isNamed callee) = [f] → f.returnValue?.isSome = true →
          ∀ r, l.defined? = some r → ∀ k ∈ last.lines, r ∉ k.ids := by
  intro run h
  have block := Module.main_mem hmain
  obtain ⟨calls, last, hruns, hmodule, hlog⟩ := runs_of_inlineMain t hmain h
  have declared := (readable_of_inlineMain h main (Module.mem_functions block rfl)).1
  have start := Hygienic.start t a hmain declared (ready main (Module.mem_functions block rfl))
  have kept := hruns.kept t a (fun f hf => ready f (Module.plain_mem_functions hf)) start
  have unsuffixed : ∀ l ∈ main.lines, ∀ id ∈ l.ids, Inlining.isCopyName id = false :=
    fun l hl => t.unsuffixed l (List.mem_flatMap.mpr ⟨_, block, hl⟩)
  refine ⟨⟨last⟩, by rw [hmodule, Module.main?_setMain hmain], ?_, ?_, ?_, ?_⟩
  · obtain ⟨copied', hy⟩ := kept.hygienic
    exact hy.once
  · rw [hmodule, Module.otherBlocks_setMain hmain]
    intro b hb hkind id hid hlast
    rcases kept.defined id hlast with hid' | hu
    · exact t.main_apart hmain hb hid' hid
    · exact hu.not_defined t (List.mem_of_mem_eraseP hb) hkind hid
  · rw [hmodule, Module.plainFunctions_setMain hmain]
    exact fun f hf q hq l hl => kept.no_parameter t unsuffixed hf hq hl
  · intro l callee copy hev f hf hv r hr k hk
    obtain ⟨hl, g, hg, call, hline, rfl⟩ := hlog l callee copy hev
    obtain rfl : call.result = r := by
      have := (Call.ofLine_eq_ok.mp hline).1
      rw [hr] at this
      exact (Option.some.inj this).symm
    exact kept.results l hl call hline f (Module.resolve_eq_ok.mpr hf) hv k hk

attribute [local instance] KeyOrder.listed

/-- The two copies of the inner function define a sum each, and both parameters are gone. -/
theorem inlining_keeps_single_assignment_nested :
    Module.nestedCalls.Tidy ∧ Module.nestedCalls.Apart ∧
      (∀ f ∈ Module.nestedCalls.functions, ArgumentsReady f.lines) ∧
      let run := (Inliner.ofPrefix "rs_linker_".toList).inlineMain Module.nestedCalls
      run.replaced = .ok 3 ∧ ∃ last, run.module.main? = some last ∧
        (last.lines.filterMap Line.defined?).Nodup ∧
        ∀ f ∈ run.module.plainFunctions, ∀ q ∈ f.parameterIds, ∀ l ∈ last.lines, q ∉ l.ids := by
  have apart : Module.nestedCalls.Apart := by decide +kernel
  have ready : ∀ f ∈ Module.nestedCalls.functions, ArgumentsReady f.lines := by decide +kernel
  have run : ((Inliner.ofPrefix "rs_linker_".toList).inlineMain Module.nestedCalls).replaced = .ok 3 := by
    decide +kernel
  obtain ⟨last, hlast, once, -, params, -⟩ :=
    inlining_keeps_single_assignment Module.nestedCalls_tidy apart ready rfl run
  exact ⟨Module.nestedCalls_tidy, apart, ready, run, last, hlast, once, fun f hf q hq l hl => (params f hf q hq l hl).1⟩

end SpirvLink
