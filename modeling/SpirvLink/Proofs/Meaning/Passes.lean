/-
  SpirvLink.Proofs.Meaning.Passes — what main does is kept from pass to pass.

  Between passes main is `Standing`: hygienic, straight-line, and apart from the global
  identifiers. A pass replaces its body and keeps it standing (`Standing.pass`), and main
  then does what it did before (`Standing.invoke`). So it is with a run (`Runs.standing`).
-/

import SpirvLink.Proofs.Inlining.Run
import SpirvLink.Proofs.Meaning.Copies

namespace SpirvLink

open Semantics

/-! ## Parts under a change of lines -/

namespace Parts

def map (h : Line → Line) (q : Parts) : Parts :=
  ⟨h q.first, q.parameters.map h, h q.label, q.body.map h, h q.exit, h q.last⟩

def withBody (q : Parts) (body : List Line) : Parts :=
  { q with body := body }

theorem lines_map (h : Line → Line) (q : Parts) : (q.map h).function.lines = q.function.lines.map h := by
  simp [function, map]

variable {q : Parts} {g : Text → Text}

theorem mem_lines {l : Line} : l ∈ q.function.lines ↔
    l = q.first ∨ l ∈ q.parameters ∨ l = q.label ∨ l ∈ q.body ∨ l = q.exit ∨ l = q.last := by
  simp only [function, List.mem_append, List.mem_cons, List.not_mem_nil, or_false, or_assoc]

theorem body_subset : q.body ⊆ q.function.lines :=
  fun _ hl => mem_lines.mpr (Or.inr (Or.inr (Or.inr (Or.inl hl))))

theorem exit_mem : q.exit ∈ q.function.lines :=
  mem_lines.mpr (Or.inr (Or.inr (Or.inr (Or.inr (Or.inl rfl)))))

theorem defined_subset {ls : List Line} (h : ls ⊆ q.function.lines) :
    ls.filterMap Line.defined? ⊆ q.function.lines.filterMap Line.defined? := by
  intro id hid
  obtain ⟨l, hl, hd⟩ := List.mem_filterMap.mp hid
  exact List.mem_filterMap.mpr ⟨l, h hl, hd⟩

theorem parameters_subset : q.parameters ⊆ q.function.lines :=
  fun _ hl => mem_lines.mpr (Or.inr (Or.inl hl))

/-- Where each identifier is defined once, the body defines no parameter. -/
theorem body_apart (once : (q.function.lines.filterMap Line.defined?).Nodup) :
    (q.body.filterMap Line.defined?).Nodup ∧
      ∀ d ∈ q.body.filterMap Line.defined?, d ∉ q.parameters.filterMap Line.defined? := by
  have parts : (q.parameters ++ q.body).Sublist q.function.lines := by
    refine (List.sublist_cons_self ..).append ?_
    exact (List.sublist_append_left ..).trans (List.sublist_cons_self ..)
  have nodup := once.sublist (parts.filterMap Line.defined?)
  rw [List.filterMap_append] at nodup
  obtain ⟨-, body, apart⟩ := List.nodup_append.mp nodup
  exact ⟨body, fun d hd hp => apart d hp d hd rfl⟩

namespace WellFormed

theorem withBody (hq : q.WellFormed) {body : List Line} (hb : ∀ l ∈ body, l.isFrame = false ∧ l.isReturn = false) :
    (q.withBody body).WellFormed :=
  ⟨hq.first, hq.parameters, hq.label, hb, hq.exit, hq.silent, hq.value, hq.last⟩

theorem renameIds (hq : q.WellFormed) (spaced : ∀ l ∈ q.function.lines, l.WellSpaced)
    (plain : ∀ l ∈ q.function.lines, ∀ id ∈ l.ids, Text.IsPlainIdent (g id)) :
    (q.map (Line.renameIds g)).WellFormed := by
  have same : ∀ l ∈ q.function.lines, (l.renameIds g).opcode? = l.opcode? :=
    fun l hl => (spaced l hl).opcode?_renameIds (plain l hl)
  have first := same _ (mem_lines.mpr (Or.inl rfl))
  have label := same _ (mem_lines.mpr (Or.inr (Or.inr (Or.inl rfl))))
  have last := same _ (mem_lines.mpr (Or.inr (Or.inr (Or.inr (Or.inr (Or.inr rfl))))))
  refine ⟨first.trans hq.first, fun l hl => ?_, label.trans hq.label, fun l hl => ?_, ?_, ?_, fun hv => ?_,
    last.trans hq.last⟩
  · obtain ⟨k, hk, rfl⟩ := List.mem_map.mp hl
    exact (same k (mem_lines.mpr (Or.inr (Or.inl hk)))).trans (hq.parameters k hk)
  · obtain ⟨k, hk, rfl⟩ := List.mem_map.mp hl
    have hl := body_subset hk
    rw [Line.isFrame_renameIds (spaced k hl) (plain k hl), Line.isReturn_renameIds (spaced k hl) (plain k hl)]
    exact hq.body k hk
  · exact (Line.isReturn_renameIds (spaced _ exit_mem) (plain _ exit_mem)).trans hq.exit
  · exact ((spaced _ exit_mem).defined?_renameIds (plain _ exit_mem)).trans (by rw [hq.silent]; rfl)
  · have hv : q.exit.hasOpcode Opcode.returnValue = true := by
      rw [Line.hasOpcode_iff] at hv ⊢
      exact (same _ exit_mem).symm.trans hv
    show (q.exit.renameIds g).ids ≠ []
    rw [Line.ids_renameIds fun id hid => (plain _ exit_mem id hid).1]
    simpa using hq.value hv

/-- The value returned is the one that was, under its new name. -/
theorem returnValue?_renameIds (hq : q.WellFormed) (spaced : ∀ l ∈ q.function.lines, l.WellSpaced)
    (plain : ∀ l ∈ q.function.lines, ∀ id ∈ l.ids, Text.IsPlainIdent (g id)) :
    (q.map (Line.renameIds g)).function.returnValue? = q.function.returnValue?.map g := by
  have opcode : (q.exit.renameIds g).hasOpcode Opcode.returnValue = q.exit.hasOpcode Opcode.returnValue := by
    rw [Line.hasOpcode, (spaced _ exit_mem).opcode?_renameIds (plain _ exit_mem)]
    rfl
  rw [(hq.renameIds spaced plain).returnValue?_eq, hq.returnValue?_eq]
  show (if (q.exit.renameIds g).hasOpcode Opcode.returnValue then (q.exit.renameIds g).ids.head? else none) = _
  rw [opcode, Line.ids_renameIds fun id hid => (plain _ exit_mem id hid).1, List.head?_map]
  split <;> rfl

end WellFormed

end Parts

section Passes

variable {V : Type} {I : Interpretation V} {G : Text → V} {p : Text} {m : Module} {copied copied' : List Text}
  {ls ls' calls last : List Line} {e : Expansion} {q : Parts} {depth : Nat} {T : List (Entry V)} {vs : List V}
  {out : Outcome V}

/-! ## The expansion of a function -/

/-- Lines without a call stand for themselves. -/
theorem expands_quiet [KeyOrder] (hls : ∀ l ∈ ls, l.isCall = false) (h : Expands p m copied ls copied' e) :
    copied' = copied ∧ e = ⟨ls, []⟩ := by
  induction h with
  | nil copied => exact ⟨rfl, rfl⟩
  | keep _ _ ih =>
    obtain ⟨rfl, rfl⟩ := ih fun k hk => hls k (List.mem_cons_of_mem _ hk)
    exact ⟨rfl, rfl⟩
  | @copy l ls copied copied' e call f hcall _ _ _ _ _ =>
    rw [hls l (List.mem_cons_self ..)] at hcall
    cases hcall

/-- The body expands, and the function expands by its body alone. -/
structure ExpandsBody [KeyOrder] (p : Text) (m : Module) (copied : List Text) (q : Parts) (copied' : List Text) (body : Expansion) :
    Prop where
  inner : Expands p m copied q.body copied' body
  whole : Expands p m copied q.function.lines copied' ⟨(q.withBody body.lines).function.lines, body.renames⟩

/-- Only the body of a straight-line function expands. -/
theorem exists_expandsBody [KeyOrder] (hq : q.WellFormed) (h : Expands p m copied q.function.lines copied' e) :
    ∃ body, ExpandsBody p m copied q copied' body ∧ e = ⟨(q.withBody body.lines).function.lines, body.renames⟩ := by
  obtain ⟨hopening, hlabel, hexit, hlast⟩ := hq.isCall_eq_false
  have split : q.function.lines = (q.first :: q.parameters ++ [q.label]) ++ (q.body ++ [q.exit, q.last]) := by
    simp [Parts.function]
  have parts := h
  rw [split] at parts
  obtain ⟨mid, e₁, e₂, h₁, h₂, rfl⟩ := parts.append_inv
  obtain ⟨mid', body, e₃, hbody, h₃, rfl⟩ := h₂.append_inv
  obtain ⟨rfl, rfl⟩ := expands_quiet (fun l hl => by
    rcases List.mem_append.mp hl with hl | hl
    · exact hopening l hl
    · rwa [List.mem_singleton.mp hl]) h₁
  obtain ⟨rfl, rfl⟩ := expands_quiet (fun l hl => by
    rcases List.mem_cons.mp hl with rfl | hl
    · exact hexit
    · rwa [List.mem_singleton.mp hl]) h₃
  have same : (⟨(q.first :: q.parameters ++ [q.label]) ++ (body.lines ++ [q.exit, q.last]), [] ++ (body.renames ++ [])⟩ :
      Expansion) = ⟨(q.withBody body.lines).function.lines, body.renames⟩ := by
    simp [Parts.withBody, Parts.function]
  exact ⟨body, ⟨hbody, same ▸ h⟩, same⟩

/-! ## Main between passes -/

/-- A function does what another one does if its body does and it returns the same value,
    under a new name. -/
theorem invoke_of_exec {q' : Parts} {m' : Module} {base base' : Env V} {g : Text → Text} {used : Text → Prop}
    (hq : q.WellFormed) (hq' : q'.WellFormed) (params : q'.function.parameterIds = q.function.parameterIds)
    (value : q'.function.returnValue? = q.function.returnValue?.map g) (hused : ∀ id ∈ q.function.returnValue?, used id)
    (hexec : ∀ depth s, exec I m (invoke I m base depth) q.body ⟨base.setAll q.function.parameterIds vs, T⟩ = some s →
      ∃ E, exec I m' (invoke I m' base' depth) q'.body ⟨base'.setAll q.function.parameterIds vs, T⟩ = some ⟨E, s.trace⟩ ∧
        Env.Carried g used s.env E)
    (hout : invoke I m base depth q.function vs T = some out) : invoke I m' base' depth q'.function vs T = some out := by
  cases depth with
  | zero => cases hout
  | succ depth =>
    obtain ⟨harity, s, hs, hleave⟩ := invoke_succ_eq_some.mp hout
    rw [hq.bodyLines_eq] at hs
    obtain ⟨E, hs', hcarried⟩ := hexec depth s hs
    obtain ⟨rfl, hvalue⟩ := hq.leave_eq_some.mp hleave
    refine invoke_succ_eq_some.mpr ⟨by rw [params, harity], ⟨E, s.trace⟩, ?_, hq'.leave_eq_some.mpr ?_⟩
    · rw [hq'.bodyLines_eq, params]
      exact hs'
    · rw [value]
      cases hr : q.function.returnValue? with
      | none => exact ⟨rfl, fun id hid => (by cases hid)⟩
      | some id =>
        obtain ⟨v, hv⟩ := Option.isSome_iff_exists.mp (hvalue id hr)
        have hv' : E (g id) = some v := hcarried id v (hused id hr) hv
        refine ⟨?_, fun id' hid' => ?_⟩
        · show Outcome.mk s.trace (s.env id) = Outcome.mk s.trace (E (g id))
          rw [hv, hv']
        · show (E id').isSome = true
          rw [← Option.some.inj hid', hv']
          rfl

/-- What main is like between passes. -/
structure Standing (m : Module) (copied : List Text) (q : Parts) : Prop where
  wellFormed : q.WellFormed
  hygienic : Hygienic m copied q.function.lines
  atomic : ∀ l ∈ q.function.lines, l.Atomic
  clear : m.Clear copied q.function.lines

theorem Standing.mono (st : Standing m copied q) (hle : ∀ name, copied.count name ≤ copied'.count name) :
    Standing m copied' q :=
  ⟨st.wellFormed, st.hygienic.mono hle, st.atomic, fun id hid => ⟨(st.clear id hid).1, fun hu =>
    (st.clear id hid).2 (hu.anti hle)⟩⟩

/-- The parts of main after the pass in which its body expands like this. -/
def Parts.after (q : Parts) (body : Expansion) : Parts :=
  (q.withBody body.lines).map (Line.renameIds (Rename.composed body.renames))

variable {body : Expansion}

theorem lines_after : (q.after body).function.lines =
    Expansion.renamed ⟨(q.withBody body.lines).function.lines, body.renames⟩ :=
  Parts.lines_map ..

namespace Standing

theorem plain_after [KeyOrder] (w : m.WellScoped) (st : Standing m copied q) (h : ExpandsBody p m copied q copied' body) :
    ∀ l ∈ (q.withBody body.lines).function.lines, ∀ id ∈ l.ids, Text.IsPlainIdent (Rename.composed body.renames id) :=
  fun _ hl => h.whole.plain_composed w.tidy st.hygienic.spaced hl

theorem withBody [KeyOrder] (w : m.WellScoped) (st : Standing m copied q) (h : ExpandsBody p m copied q copied' body) :
    (q.withBody body.lines).WellFormed := by
  refine st.wellFormed.withBody (h.inner.forall_lines st.wellFormed.body fun f hf copy l hl => ?_)
  obtain ⟨k, hk, spaced, named, rfl⟩ := w.tidy.of_mem_copyLines hf hl
  rw [Line.isFrame_renameIds spaced named, Line.isReturn_renameIds spaced named]
  exact ⟨(w.straight f (Module.plain_mem_functions hf)).body k hk, by simpa using List.mem_takeWhile_imp hk⟩

/-- A pass keeps main standing. -/
theorem pass [KeyOrder] (w : m.WellScoped) (st : Standing m copied q) (h : ExpandsBody p m copied q copied' body) :
    Standing m copied' (q.after body) := by
  have spaced := h.whole.spaced w.tidy st.hygienic.spaced
  have plain := st.plain_after w h
  have atomic : ∀ l ∈ (q.withBody body.lines).function.lines, l.Atomic := by
    refine h.whole.forall_lines st.atomic fun f hf copy l hl => ?_
    obtain ⟨k, hk, spaced, named, rfl⟩ := w.tidy.of_mem_copyLines hf hl
    exact (w.atomic f (Module.plain_mem_functions hf) k (Function.bodyLines_subset hk)).renameIds spaced named
  refine ⟨(st.withBody w h).renameIds spaced plain, ?_, fun l hl => ?_, fun id hid => ?_⟩
  · rw [lines_after]
    exact st.hygienic.pass w.tidy w.apart (fun f hf => w.ready (Module.plain_mem_functions hf)) h.whole
  · rw [lines_after] at hl
    obtain ⟨k, hk, rfl⟩ := List.mem_map.mp hl
    exact (atomic k hk).renameIds (spaced k hk) (plain k hk)
  · obtain ⟨hd, hu⟩ := st.clear id hid
    refine ⟨fun hmem => ?_, fun hu' => hu (hu'.anti h.whole.count_le)⟩
    rw [lines_after, h.whole.defined_renamed w.tidy st.hygienic.toSound] at hmem
    rcases h.whole.defines w.tidy hmem with ⟨l, hl, -, hld⟩ | ⟨hm, -⟩
    · exact hd (List.mem_filterMap.mpr ⟨l, hl, hld⟩)
    · exact hu hm.1

/-- A pass keeps the parameters of main. -/
theorem parameterIds [KeyOrder] (w : m.WellScoped) (st : Standing m copied q) (h : ExpandsBody p m copied q copied' body) :
    (q.after body).function.parameterIds = q.function.parameterIds := by
  rw [(st.pass w h).wellFormed.parameterIds_eq, st.wellFormed.parameterIds_eq]
  show (q.parameters.map _).filterMap Line.defined? = _
  rw [List.filterMap_map]
  exact List.filterMap_congr fun l hl => h.whole.defined?_renamed w.tidy st.hygienic.toSound
    (Parts.parameters_subset (q := q.withBody body.lines) hl)

/-- A pass renames the value that main returns. -/
theorem returnValue? [KeyOrder] (w : m.WellScoped) (st : Standing m copied q) (h : ExpandsBody p m copied q copied' body) :
    (q.after body).function.returnValue? = q.function.returnValue?.map (Rename.composed body.renames) := by
  have same : (q.withBody body.lines).function.returnValue? = q.function.returnValue? := by
    rw [(st.withBody w h).returnValue?_eq, st.wellFormed.returnValue?_eq]
    rfl
  rw [Parts.after, (st.withBody w h).returnValue?_renameIds (h.whole.spaced w.tidy st.hygienic.spaced) (st.plain_after w h),
    same]

/-- When main starts, the values of its parameters are those of the expansion of its body:
    the renames of the pass change no name that has a value. -/
theorem entry [KeyOrder] (w : m.WellScoped) (st : Standing m copied q) (h : ExpandsBody p m copied q copied' body)
    (G : Text → V) (vs : List V) :
    let E := (globals m G).setAll q.function.parameterIds vs
    (body.lines.filterMap Line.defined?).Nodup ∧ Abreast m (Rename.composed body.renames) G body.lines E E := by
  intro E
  have unset : ∀ id, id ∉ q.parameters.filterMap Line.defined? → E id = globals m G id := by
    intro id hid
    rw [← st.wellFormed.parameterIds_eq] at hid
    exact setAll_of_not_mem hid
  have connects := h.whole.connects w.tidy w.apart st.hygienic st.clear
  have free : ∀ id, IsGlobal m id → id ∉ (q.withBody body.lines).function.lines.filterMap Line.defined? := by
    intro id hid
    have clear := ((st.pass w h).clear id hid).1
    rwa [lines_after, h.whole.defined_renamed w.tidy st.hygienic.toSound] at clear
  have param : q.parameters.filterMap Line.defined? ⊆ (q.withBody body.lines).function.lines.filterMap Line.defined? :=
    Parts.defined_subset (Parts.parameters_subset (q := q.withBody body.lines))
  obtain ⟨once, apart⟩ := Parts.body_apart (h.whole.once w.tidy st.hygienic.toSound)
  refine ⟨once, fun id v _ hv => ?_, fun id hid => ?_, fun d hd => ?_⟩
  · suffices Rename.composed body.renames id = id by rwa [this]
    rcases setAll_eq_some hv with hzip | hv
    · have hq := (List.of_mem_zip hzip).1
      rw [st.wellFormed.parameterIds_eq] at hq
      exact connects.defined id (param hq)
    · refine connects.global id ?_
      by_contra hne
      rw [globals, if_neg hne] at hv
      cases hv
  · rw [unset id fun hq => free id hid (param hq), globals, if_pos hid]
  · rw [unset d (apart d hd), globals, if_neg fun hid => free d hid (Parts.defined_subset Parts.body_subset hd)]

/-- After a pass main does what it did before. -/
theorem invoke [KeyOrder] (w : m.WellScoped) (st : Standing m copied q) (h : ExpandsBody p m copied q copied' body)
    (hout : Semantics.invoke I m (globals m G) depth q.function vs T = some out) :
    Semantics.invoke I m (globals m G) depth (q.after body).function vs T = some out := by
  have connects : Connects m (Rename.composed body.renames) body :=
    (h.whole.connects w.tidy w.apart st.hygienic st.clear).mono (Parts.body_subset (q := q.withBody body.lines))
      (List.Subset.refl _)
  obtain ⟨once, abreast⟩ := st.entry w h G vs
  refine invoke_of_exec st.wellFormed (st.pass w h).wellFormed (st.parameterIds w h) (st.returnValue? w h)
    (fun _ _ => trivial) (fun depth s hexec => ?_) hout
  exact h.inner.exec w connects (fun l hl => st.atomic l (Parts.body_subset hl))
    (fun l hl => st.hygienic.spaced l (Parts.body_subset hl)) once abreast hexec

/-- Main stands before the first pass. -/
theorem start (w : m.WellScoped) {main : Function} (hmain : m.main? = some main) :
    ∃ q : Parts, q.function = main ∧ Standing m [] q := by
  have hf : main ∈ m.functions := Module.mem_functions (Module.main_mem hmain) rfl
  obtain ⟨q, hq, rfl, -⟩ := (w.straight main hf).parts
  refine ⟨q, rfl, hq, Hygienic.start w.tidy w.apart hmain (w.named hf) (w.ready hf), w.atomic _ hf, fun id hid => ?_⟩
  refine ⟨hid.2 _ hf, fun hu => ?_⟩
  rcases hu.owned_or with ⟨f, hplain, ho⟩ | hs
  · exact not_owned_of_global w hplain hid ho
  · obtain ⟨l, hl, hmem⟩ := hid.1
    rw [w.unsuffixed l hl id hmem] at hs
    cases hs

end Standing

/-! ## Runs -/

/-- After a run main stands, with the parameters that it had, and does what it did before. -/
theorem Runs.standing [KeyOrder] (w : m.WellScoped) (h : Runs p m copied ls calls last) (hq : q.function.lines = ls)
    (st : Standing m copied q) : ∃ q' copied', q'.function.lines = last ∧ Standing m copied' q' ∧
      q'.function.parameterIds = q.function.parameterIds ∧
      ∀ depth vs T out, invoke I m (globals m G) depth q.function vs T = some out →
        invoke I m (globals m G) depth q'.function vs T = some out := by
  induction h generalizing q with
  | @done copied ls _ => exact ⟨q, copied, hq, st, rfl, fun _ _ _ _ h => h⟩
  | @pass copied copied' copied'' ls calls last e he hcount _ ih =>
    subst hq
    obtain ⟨body, hbody, rfl⟩ := exists_expandsBody st.wellFormed he
    obtain ⟨q', final, hlast, standing, params, hinvoke⟩ := ih lines_after
      ((st.pass w hbody).mono fun name => Nat.le_of_eq (hcount name).symm)
    exact ⟨q', final, hlast, standing, params.trans (st.parameterIds w hbody),
      fun depth vs T out h => hinvoke depth vs T out (st.invoke w hbody h)⟩

/-! ## Main without calls -/

theorem Module.mem_functions_setMain {main f : Function} (hmain : m.main? = some main)
    (hf : f ∈ (m.setMain ls).functions) : f = ⟨ls⟩ ∨ f ∈ m.functions := by
  obtain ⟨before, after, hm, -, hset⟩ := exists_of_main? hmain
  obtain ⟨b, hb, hbody, hlines⟩ := exists_block hf
  rw [hset] at hb
  have other : b ∈ before ++ after → f ∈ m.functions := by
    intro hb
    have hmem : b ∈ m.blocks := by
      rw [hm]
      exact (List.mem_append.mp hb).elim (List.mem_append_left _) fun h => List.mem_append_right _ (List.mem_cons_of_mem _ h)
    have := mem_functions hmem hbody
    rwa [hlines] at this
  rcases List.mem_append.mp hb with hb | hb
  · exact Or.inr (other (List.mem_append_left _ hb))
  · rcases List.mem_cons.mp hb with rfl | hb
    · exact Or.inl (congrArg Function.mk hlines.symm)
    · exact Or.inr (other (List.mem_append_right _ hb))

/-- What main uses and is global stays so when main takes the place of the one that was. -/
theorem Standing.isGlobal {main : Function} (hmain : m.main? = some main) (st : Standing m copied q) {l : Line}
    (hl : l ∈ q.function.lines) {id : Text} (hid : id ∈ l.ids) (hg : IsGlobal m id) :
    IsGlobal (m.setMain q.function.lines) id := by
  have main' := Module.main?_setMain hmain q.function.lines
  refine ⟨⟨l, List.mem_flatMap.mpr ⟨_, Module.main_mem main', hl⟩, hid⟩, fun f hf => ?_⟩
  rcases Module.mem_functions_setMain hmain hf with rfl | hf
  · exact (st.clear id hg).1
  · exact hg.2 f hf

/-- Main without calls does in the new module what it does in the old one. -/
theorem Standing.invoke_setMain {main : Function} (hmain : m.main? = some main) (st : Standing m copied q)
    (quiet : ∀ l ∈ q.function.lines, l.isCall = false)
    (hout : Semantics.invoke I m (globals m G) depth q.function vs T = some out) :
    Semantics.invoke I (m.setMain q.function.lines) (globals (m.setMain q.function.lines) G) depth q.function vs T =
      some out := by
  have main' := Module.main?_setMain hmain q.function.lines
  have own : ∀ d ∈ q.body.filterMap Line.defined?, ¬ IsGlobal (m.setMain q.function.lines) d := by
    intro d hd hg
    exact hg.2 _ (Module.mem_functions (Module.main_mem main') rfl) (Parts.defined_subset Parts.body_subset hd)
  obtain ⟨once, apart⟩ := Parts.body_apart st.hygienic.once
  have carried : Env.Carried id (fun x => ∃ l ∈ q.function.lines, x ∈ l.ids)
      ((globals m G).setAll q.function.parameterIds vs)
      ((globals (m.setMain q.function.lines) G).setAll q.function.parameterIds vs) := by
    rintro x v ⟨l, hl, hx⟩ hv
    rcases Option.or_eq_some_iff.mp hv with hv | ⟨hnone, hv⟩
    · exact Option.or_eq_some_iff.mpr (Or.inl hv)
    · refine Option.or_eq_some_iff.mpr (Or.inr ⟨hnone, ?_⟩)
      unfold globals at hv
      split at hv
      · next hg =>
        rw [← hv]
        exact if_pos (st.isGlobal hmain hl hx hg)
      · cases hv
  have fresh : ∀ d ∈ q.body.filterMap Line.defined?,
      ((globals (m.setMain q.function.lines) G).setAll q.function.parameterIds vs) (id d) = none := by
    intro d hd
    have hq := apart d hd
    rw [← st.wellFormed.parameterIds_eq] at hq
    rw [id, setAll_of_not_mem hq, globals, if_neg (own d hd)]
  have same : q.body.map (Line.renameIds id) = q.body :=
    (List.map_congr_left fun l _ => Line.renameIds_of_eq fun _ _ => rfl).trans (List.map_id _)
  refine invoke_of_exec (g := id) st.wellFormed st.wellFormed rfl (by simp)
    (fun x hx => Function.mem_ids_of_returnValue hx) (fun depth s hexec => ?_) hout
  have answered : ∀ l ∈ q.body, Answered m (m.setMain q.function.lines) (Semantics.invoke I m (globals m G) depth)
      (Semantics.invoke I (m.setMain q.function.lines) (globals (m.setMain q.function.lines) G) depth) id l := by
    intro l hl _ _ _ _ _ hcall
    rw [quiet l (Parts.body_subset hl)] at hcall
    cases hcall
  obtain ⟨E, hexec', hcarried, -⟩ := exec_renamed (g := id) (fun l hl => st.atomic l (Parts.body_subset hl))
    (fun l hl => st.hygienic.spaced l (Parts.body_subset hl)) (fun l hl => (st.hygienic.spaced l (Parts.body_subset hl)).plain)
    (fun l hl x hx => ⟨l, Parts.body_subset hl, hx⟩) answered (by rwa [List.map_id]) fresh
    carried hexec
  rw [same] at hexec'
  exact ⟨E, hexec', hcarried⟩

end Passes

end SpirvLink
