/-
  SpirvLink.Proofs.Meaning.Copies — a copy in the place of a call does what the call does.

  The copy of a body runs in the environment of main as the body runs in its own: each name
  of the body has its value under the name that the copy and the renames of the pass give it
  (`carried_parameters`, `exec_copy`). So the lines of an expansion, renamed, do what the
  lines of main do (`Expands.exec`), and the two stay `Abreast`. What this asks of the renames
  of a pass is `Connects`.
-/

import SpirvLink.Proofs.Meaning.Renaming
import SpirvLink.Proofs.Meaning.Scoping

namespace SpirvLink

open Semantics

section Copies

variable {V : Type} {I : Interpretation V} {G : Text → V} {p : Text} {m : Module} {copied copied' : List Text}
  {ls ls' : List Line} {e : Expansion} {g : Text → Text} {f : Function} {call : Call} {copy depth : Nat}
  {E E' E₁ F : Env V} {T : List (Entry V)} {l : Line} {s : State V} {vs : List V} {out : Outcome V}

/-! ## Parameters and their values -/

theorem setAll_eq_some {ids : List Text} {id : Text} {v : V} (h : E.setAll ids vs id = some v) :
    (id, v) ∈ ids.zip vs ∨ E id = some v := by
  rcases Option.or_eq_some_iff.mp h with h | ⟨-, h⟩
  · obtain ⟨before, after, hzip, -⟩ := List.lookup_eq_some_iff.mp h
    rw [hzip]
    exact Or.inl (List.mem_append_right _ (List.mem_cons_self ..))
  · exact Or.inr h

theorem setAll_of_not_mem {ids : List Text} {id : Text} (h : id ∉ ids) : E.setAll ids vs id = E id := by
  have none' : (ids.zip vs).lookup id = none := by
    rw [List.lookup_eq_none_iff]
    rintro ⟨a, v⟩ ha
    have : id ≠ a := fun he => h (he ▸ (List.of_mem_zip ha).1)
    simpa using this
  rw [Env.setAll, none', Option.none_or]

/-- A parameter has the value of the argument in its place. -/
theorem exists_argument_value {params args : List Text} {q : Text} {v : V} (hargs : args.mapM E = some vs)
    (h : (q, v) ∈ params.zip vs) : ∃ arg, (q, arg) ∈ params.zip args ∧ E arg = some v := by
  induction args generalizing params vs with
  | nil =>
    cases hargs
    simp at h
  | cons arg args ih =>
    obtain ⟨w, ws, hw, hws, rfl⟩ := mapM_cons_eq_some.mp hargs
    cases params with
    | nil => cases h
    | cons q' params =>
      rcases List.mem_cons.mp h with heq | h
      · cases heq
        exact ⟨arg, List.mem_cons_self .., hw⟩
      · obtain ⟨arg', hmem, hv⟩ := ih hws h
        exact ⟨arg', List.mem_cons_of_mem _ hmem, hv⟩

/-! ## The renames of a pass -/

/-- What a renaming has to do for an expansion: it makes the renames, and leaves alone what
    the expansion defines and what functions and modules share. -/
structure Connects (m : Module) (g : Text → Text) (e : Expansion) : Prop where
  plain : ∀ l ∈ e.lines, ∀ id ∈ l.ids, Text.IsPlainIdent (g id)
  defined : ∀ d ∈ e.lines.filterMap Line.defined?, g d = d
  foreign : ∀ id, m.Foreign id → g id = id
  global : ∀ id, IsGlobal m id → g id = id
  renames : ∀ r ∈ e.renames, g r.old = g r.new

theorem Connects.mono (hg : Connects m g e) {e' : Expansion} (hl : e'.lines ⊆ e.lines) (hr : e'.renames ⊆ e.renames) :
    Connects m g e' :=
  ⟨fun l h => hg.plain l (hl h), fun d hd => hg.defined d (by
      obtain ⟨l, h, hd⟩ := List.mem_filterMap.mp hd
      exact List.mem_filterMap.mpr ⟨l, hl h, hd⟩), hg.foreign, hg.global, fun r h => hg.renames r (hr h)⟩

/-- Main defines no global identifier and none is to come. -/
def Module.Clear (m : Module) (copied : List Text) (ls : List Line) : Prop :=
  ∀ id, IsGlobal m id → id ∉ ls.filterMap Line.defined? ∧ ¬ m.Upcoming copied id

theorem Expands.connects [KeyOrder] (t : m.Tidy) (a : m.Apart) (hy : Hygienic m copied ls) (clear : m.Clear copied ls)
    (h : Expands p m copied ls copied' e) : Connects m (Rename.composed e.renames) e := by
  refine ⟨fun l hl => h.plain_composed t hy.spaced hl, fun d hd => h.composed_defined t hy.toSound hd, fun id hf => ?_,
    fun id hid => ?_, fun r hr => Rename.composed_old (h.chained t a hy) hr⟩
  · exact h.composed_of_settled t (fun hm => hf.not_upcoming t a hm.1) fun l hl hr => (hy.result hl hr).2.1 hf
  · obtain ⟨hd, hu⟩ := clear id hid
    exact h.composed_of_settled t (fun hm => hu hm.1) fun l hl hr =>
      hd (List.mem_filterMap.mpr ⟨l, hl, (Line.result?_eq_some hr).2⟩)

/-! ## One copy -/

theorem named_of_callee? {id : Text} (h : callee? m id = some f) : m.Named id :=
  ⟨f, Module.plain_mem_functions (List.mem_of_find?_eq_some h), List.find?_some h⟩

theorem not_owned_of_global (w : m.WellScoped) (hf : f ∈ m.plainFunctions) {id : Text} (hid : IsGlobal m id) :
    id ∉ f.owned :=
  fun ho => hid.2 f (Module.plain_mem_functions hf) (w.tidy.owned_defined hf ho)

/-- Parameters and global identifiers have their values under the names of a copy. -/
theorem carried_parameters [KeyOrder] (w : m.WellScoped) (hf : f ∈ m.plainFunctions)
    (hg : Connects m g ⟨f.copyLines copy, f.copyRenames copy call⟩) (hargs : call.arguments.mapM E = some vs)
    (hE : Env.Carried g (fun _ => True) E E') (hglobal : ∀ id, IsGlobal m id → E' id = some (G id)) :
    Env.Carried (g ∘ f.nameIn copy) (fun _ => True) ((globals m G).setAll f.parameterIds vs) E' := by
  intro id v _ hv
  rcases setAll_eq_some hv with hzip | hv
  · obtain ⟨arg, harg, hv⟩ := exists_argument_value hargs hzip
    have rename : ⟨f.nameIn copy id, arg⟩ ∈ f.copyRenames copy call := by
      refine List.mem_append_left _ ?_
      rw [Function.passed, List.zipWith_map_left, ← List.map_uncurry_zip_eq_zipWith]
      exact List.mem_map.mpr ⟨_, harg, rfl⟩
    exact (congrArg E' (hg.renames _ rename)).trans (hE arg v trivial hv)
  · unfold globals at hv
    split at hv
    · next hid =>
      cases hv
      show E' (g (f.nameIn copy id)) = _
      rw [Function.nameIn_of_not_mem (not_owned_of_global w hf hid), hg.global id hid, hglobal id hid]
    · cases hv

/-- The name of a function on a line of a body is left alone. -/
theorem callee_fixed [KeyOrder] (w : m.WellScoped) (hf : f ∈ m.plainFunctions)
    (hg : Connects m g ⟨f.copyLines copy, f.copyRenames copy call⟩) {l : Line} (hl : l ∈ f.lines) {id : Text}
    (hid : id ∈ l.ids) (hn : m.Named id) : g (f.nameIn copy id) = id := by
  have ho := w.not_owned hn hf
  rw [Function.nameIn_of_not_mem ho, hg.foreign id ⟨f, hf, ho, l, hl, hid⟩]

/-- The lines of a copy, renamed, are those of the body under the names that both give. -/
theorem renamed_copyLines [KeyOrder] (t : m.Tidy) (hf : f ∈ m.plainFunctions) (g : Text → Text) :
    (f.copyLines copy).map (Line.renameIds g) = f.bodyLines.map (Line.renameIds (g ∘ f.nameIn copy)) := by
  rw [t.copyLines hf, List.map_map]
  refine List.map_congr_left fun l hl => Line.renameIds_renameIds g fun id hid => ?_
  exact (Function.plain_nameIn (t.spaced_plain hf l (Function.bodyLines_subset hl)) copy id hid).1

theorem Connects.defined_body [KeyOrder] (hg : Connects m g ⟨f.copyLines copy, f.copyRenames copy call⟩) (t : m.Tidy)
    (hf : f ∈ m.plainFunctions) :
    (f.bodyLines.filterMap Line.defined?).map (g ∘ f.nameIn copy) = (f.copyLines copy).filterMap Line.defined? := by
  rw [← List.map_map, ← t.defined_copyLines hf]
  exact (List.map_congr_left fun d hd => hg.defined d hd).trans (List.map_id _)

theorem Connects.plain_body [KeyOrder] (hg : Connects m g ⟨f.copyLines copy, f.copyRenames copy call⟩) (t : m.Tidy)
    (hf : f ∈ m.plainFunctions) {l : Line} (hl : l ∈ f.bodyLines) :
    ∀ id ∈ l.ids, Text.IsPlainIdent ((g ∘ f.nameIn copy) id) := by
  intro id hid
  refine hg.plain _ ((t.mem_copyLines hf).mpr ⟨l, hl, rfl⟩) _ ?_
  rw [Line.ids_renameIds fun i hi => (Function.plain_nameIn (t.spaced_plain hf l (Function.bodyLines_subset hl)) copy i hi).1]
  exact List.mem_map_of_mem hid

/-- The copy of a body, renamed, does in main what the callee does. The value that the callee
    returns is there under the name that takes the place of the result. -/
theorem exec_copy [KeyOrder] (w : m.WellScoped) (hf : f ∈ m.plainFunctions)
    (hg : Connects m g ⟨f.copyLines copy, f.copyRenames copy call⟩)
    (once : ((f.copyLines copy).filterMap Line.defined?).Nodup)
    (fresh : ∀ d ∈ (f.copyLines copy).filterMap Line.defined?, E' d = none)
    (hglobal : ∀ id, IsGlobal m id → E' id = some (G id)) (hE : Env.Carried g (fun _ => True) E E')
    (hargs : call.arguments.mapM E = some vs) (h : invoke I m (globals m G) depth f vs T = some out) :
    ∃ E₁, exec I m (invoke I m (globals m G) depth) ((f.copyLines copy).map (Line.renameIds g)) ⟨E', T⟩ =
        some ⟨E₁, out.trace⟩ ∧
      (∀ v, out.returned = some v → ∃ value, f.returnValue? = some value ∧ E₁ (g (f.nameIn copy value)) = some v) ∧
      ∀ id, id ∉ (f.copyLines copy).filterMap Line.defined? → E₁ id = E' id := by
  cases depth with
  | zero => cases h
  | succ depth =>
    obtain ⟨-, s, hexec, hleave⟩ := invoke_succ_eq_some.mp h
    have hff := Module.plain_mem_functions hf
    have spaced := w.tidy.spaced_plain hf
    have names := hg.defined_body w.tidy hf
    -- The callees of the body have one step less to go, and a greater depth does not hurt.
    have answered : ∀ l ∈ f.bodyLines, Answered m m (invoke I m (globals m G) depth) (invoke I m (globals m G) (depth + 1))
        (g ∘ f.nameIn copy) l := by
      intro l hl call' f' vs' T' out' _ hline hcallee hrun
      have hid : call'.callee ∈ l.ids := by
        refine (spaced l (Function.bodyLines_subset hl)).mem_ids_of_rhs ?_
        rw [(Call.ofLine_eq_ok.mp hline).2]
        exact List.mem_cons_of_mem _ (List.mem_cons_self ..)
      have fixed := callee_fixed w hf hg (Function.bodyLines_subset hl) hid (named_of_callee? hcallee)
      exact ⟨by rwa [Function.comp, fixed], invoke_mono (Nat.le_succ depth) hrun⟩
    have fresh' : ∀ d ∈ f.bodyLines.filterMap Line.defined?, E' ((g ∘ f.nameIn copy) d) = none := by
      intro d hd
      refine fresh _ ?_
      rw [← names]
      exact List.mem_map_of_mem hd
    obtain ⟨E₁, hexec', hcarried, hsame⟩ := exec_renamed (fun l hl => w.atomic f hff l (Function.bodyLines_subset hl))
      (fun l hl => spaced l (Function.bodyLines_subset hl)) (fun l hl => hg.plain_body w.tidy hf hl)
      (fun _ _ _ _ => trivial) answered (by rwa [names]) fresh' (carried_parameters w hf hg hargs hE hglobal) hexec
    rw [← renamed_copyLines w.tidy hf g] at hexec'
    rw [names] at hsame
    obtain ⟨q, hq, rfl, -⟩ := (w.straight f hff).parts
    obtain ⟨rfl, -⟩ := hq.leave_eq_some.mp hleave
    refine ⟨E₁, hexec', fun v hv => ?_, hsame⟩
    obtain ⟨value, hvalue, hv⟩ := Option.bind_eq_some_iff.mp hv
    exact ⟨value, hvalue, hcarried value v trivial hv⟩

/-! ## All lines of main -/

/-- How main and its expansion stand between two lines: the values that main has are there
    under the new names, the global identifiers have theirs, and what is defined in the lines
    ahead has none. -/
structure Abreast (m : Module) (g : Text → Text) (G : Text → V) (ahead : List Line) (E E' : Env V) : Prop where
  carried : Env.Carried g (fun _ => True) E E'
  global : ∀ id, IsGlobal m id → E' id = some (G id)
  fresh : ∀ d ∈ ahead.filterMap Line.defined?, E' d = none

theorem Abreast.keeps (h : Abreast m g G (ls ++ ls') E E')
    (same : ∀ id, id ∉ ls.filterMap Line.defined? → F id = E' id) {id : Text} {v : V} (hv : E' id = some v) :
    F id = some v := by
  rw [same id fun hd => ?_, hv]
  have fresh := h.fresh id (by rw [List.filterMap_append]; exact List.mem_append_left _ hd)
  rw [hv] at fresh
  cases fresh

/-- They still do so after lines that change the value of nothing but what they define. -/
theorem Abreast.next (h : Abreast m g G (ls ++ ls') E E') (once : ((ls ++ ls').filterMap Line.defined?).Nodup)
    (same : ∀ id, id ∉ ls.filterMap Line.defined? → F id = E' id) (carried : Env.Carried g (fun _ => True) E₁ F) :
    Abreast m g G ls' E₁ F := by
  rw [List.filterMap_append] at once
  obtain ⟨-, -, apart⟩ := List.nodup_append.mp once
  refine ⟨carried, fun id hid => h.keeps same (h.global id hid), fun d hd => ?_⟩
  rw [same d fun hc => apart d hc d hd rfl]
  exact h.fresh d (by rw [List.filterMap_append]; exact List.mem_append_right _ hd)

/-- A line that is no call, renamed, does what the line does. -/
theorem exec_kept {run : Callees V} {renames : List Rename} (hg : Connects m g ⟨l :: ls', renames⟩) (atomic : l.Atomic)
    (spaced : l.WellSpaced) (hcall : l.isCall = false) (h : Abreast m g G ([l] ++ ls') E E')
    (hs : step I m run l ⟨E, T⟩ = some s) : ∃ F, exec I m run [l.renameIds g] ⟨E', T⟩ = some ⟨F, s.trace⟩ ∧
      Env.Carried g (fun _ => True) s.env F ∧ ∀ id, id ∉ [l].filterMap Line.defined? → F id = E' id := by
  have here : ∀ d ∈ [l].filterMap Line.defined?, d ∈ (l :: ls').filterMap Line.defined? := by
    intro d hd
    obtain ⟨k, hk, hd⟩ := List.mem_filterMap.mp hd
    exact List.mem_filterMap.mpr ⟨k, List.mem_append_left ls' hk, hd⟩
  have names : ([l].filterMap Line.defined?).map g = [l].filterMap Line.defined? :=
    (List.map_congr_left fun d hd => hg.defined d (here d hd)).trans (List.map_id _)
  have answered : Answered m m run run g l := by
    intro _ _ _ _ _ h
    rw [hcall] at h
    cases h
  have once : ([l].filterMap Line.defined?).Nodup := by
    cases hd : l.defined? <;> simp [hd]
  have kept := exec_renamed (g := g) (List.forall_mem_singleton.mpr atomic) (List.forall_mem_singleton.mpr spaced)
    (List.forall_mem_singleton.mpr (hg.plain l (List.mem_cons_self ..))) (fun _ _ _ _ => trivial)
    (List.forall_mem_singleton.mpr answered) (by rwa [names])
    (fun d hd => by rw [hg.defined d (here d hd)]; exact h.fresh d (here d hd)) h.carried
    (Option.bind_eq_some_iff.mpr ⟨s, hs, rfl⟩)
  rwa [names] at kept

/-- The copy that takes the place of a call does what the call does, and the value of the
    result is there under its new name. -/
theorem exec_call [KeyOrder] (w : m.WellScoped) (hcall : l.isCall = true) (hline : Call.ofLine l = .ok call)
    (hres : Inlining.resolve m call.callee = .ok f) (hg : Connects m g ⟨f.copyLines copy, f.copyRenames copy call⟩)
    (once : ((f.copyLines copy).filterMap Line.defined?).Nodup) (h : Abreast m g G (f.copyLines copy ++ ls') E E')
    (hs : step I m (invoke I m (globals m G) depth) l ⟨E, T⟩ = some s) :
    ∃ F, exec I m (invoke I m (globals m G) depth) ((f.copyLines copy).map (Line.renameIds g)) ⟨E', T⟩ =
        some ⟨F, s.trace⟩ ∧ Env.Carried g (fun _ => True) s.env F ∧
      ∀ id, id ∉ (f.copyLines copy).filterMap Line.defined? → F id = E' id := by
  obtain ⟨call', f', vs, out, hline', hf', hvs, hout, rfl⟩ := (step_call_eq_some hcall).mp hs
  cases hline.symm.trans hline'
  cases (callee?_of_resolve hres).symm.trans hf'
  have fresh : ∀ d ∈ (f.copyLines copy).filterMap Line.defined?, E' d = none := fun d hd =>
    h.fresh d (by rw [List.filterMap_append]; exact List.mem_append_left _ hd)
  obtain ⟨F, hexec, hvalue, same⟩ := exec_copy w (Module.plain_of_resolve hres).1 hg once fresh h.global h.carried hvs hout
  refine ⟨F, hexec, fun id v _ (hv : E.setResult (some call.result) out.returned id = some v) => ?_, same⟩
  by_cases hid : id = call.result ∧ out.returned.isSome = true
  · obtain ⟨rfl, hr⟩ := hid
    obtain ⟨r, hr⟩ := Option.isSome_iff_exists.mp hr
    obtain ⟨value, hreturn, hcopy⟩ := hvalue r hr
    rw [hr, Env.setResult_self] at hv
    have rename : ⟨call.result, f.nameIn copy value⟩ ∈ f.copyRenames copy call := by
      refine List.mem_append_right _ ?_
      rw [Function.returned, hreturn]
      exact List.mem_singleton.mpr rfl
    rw [← hv, ← hcopy]
    exact congrArg F (hg.renames _ rename)
  · refine h.keeps same (h.carried id v trivial ?_)
    cases hr : out.returned with
    | none => rwa [hr] at hv
    | some r =>
      rwa [Env.setResult_of_ne fun he => hid ⟨(Option.some.inj he).symm, by rw [hr]; rfl⟩] at hv

/-- The lines of an expansion, renamed, do what the lines of main do. -/
theorem Expands.exec [KeyOrder] (w : m.WellScoped) (h : Expands p m copied ls copied' e) (hg : Connects m g e)
    (atomic : ∀ l ∈ ls, l.Atomic) (spaced : ∀ l ∈ ls, l.WellSpaced) (once : (e.lines.filterMap Line.defined?).Nodup)
    (abreast : Abreast m g G e.lines E E')
    (hs : Semantics.exec I m (invoke I m (globals m G) depth) ls ⟨E, T⟩ = some s) :
    ∃ F, Semantics.exec I m (invoke I m (globals m G) depth) (e.lines.map (Line.renameIds g)) ⟨E', T⟩ =
        some ⟨F, s.trace⟩ ∧ Env.Carried g (fun _ => True) s.env F := by
  induction h generalizing E E' T with
  | nil copied =>
    cases hs
    exact ⟨E', rfl, abreast.carried⟩
  | @keep l ls copied copied' e hcall _ ih =>
    rw [List.forall_mem_cons] at atomic spaced
    obtain ⟨s₁, hl, hs⟩ := Option.bind_eq_some_iff.mp hs
    obtain ⟨F₁, hexec₁, carried, same⟩ := exec_kept hg atomic.1 spaced.1 hcall abreast hl
    obtain ⟨F, hexec, hcarried⟩ := ih (hg.mono (List.subset_cons_self l e.lines) (List.Subset.refl _)) atomic.2 spaced.2
      (once.sublist ((List.sublist_cons_self l e.lines).filterMap _)) (abreast.next once same carried) hs
    refine ⟨F, ?_, hcarried⟩
    rw [List.map_cons, ← List.singleton_append, exec_append, hexec₁]
    exact hexec
  | @copy l ls copied copied' e call f hcall hline hres _ _ ih =>
    rw [List.forall_mem_cons] at atomic spaced
    obtain ⟨s₁, hl, hs⟩ := Option.bind_eq_some_iff.mp hs
    have onceCopy := once.sublist ((List.sublist_append_left ..).filterMap _)
    obtain ⟨F₁, hexec₁, carried, same⟩ := exec_call w hcall hline hres
      (hg.mono (List.subset_append_left ..) (List.subset_append_left ..)) onceCopy abreast hl
    obtain ⟨F, hexec, hcarried⟩ := ih (hg.mono (List.subset_append_right ..) (List.subset_append_right ..)) atomic.2
      spaced.2 (once.sublist ((List.sublist_append_right ..).filterMap _)) (abreast.next once same carried) hs
    refine ⟨F, ?_, hcarried⟩
    rw [List.map_append, exec_append, hexec₁]
    exact hexec

end Copies

end SpirvLink
