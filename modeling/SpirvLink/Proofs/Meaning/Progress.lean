/-
  SpirvLink.Proofs.Meaning.Progress — a module that can be inlined has a meaning.

  Scoped lines never want for a value: they run to the end if their calls do, and what they
  give has a value then (`exec_isSome`). So a function has an outcome if the calls in its
  body have one (`invoke_isSome`), and where the calls of main unfold, each has one at some
  depth (`Unfolds.completes`). A run unfolds them (`Runs.unfolds`), since no rename makes the
  name of a function out of another identifier.
-/

import SpirvLink.Proofs.Inlining.Unfolding
import SpirvLink.Proofs.Meaning.Passes

namespace SpirvLink

open Semantics

section Progress

variable {V : Type} {I : Interpretation V} {G : Text → V} {p : Text} {m : Module} {run : Callees V} {scope : List Text}
  {E : Env V} {T : List (Entry V)} {l : Line} {ls : List Line} {vs : List V} {f : Function} {depth : Nat}

/-! ## Scoped lines run to the end -/

theorem mapM_isSome {α β : Type} {h : α → Option β} : ∀ {xs : List α}, (∀ x ∈ xs, (h x).isSome = true) →
    ∃ ys, xs.mapM h = some ys ∧ ys.length = xs.length
  | [], _ => ⟨[], rfl, rfl⟩
  | x :: xs, hx => by
    obtain ⟨y, hy⟩ := Option.isSome_iff_exists.mp (hx x (List.mem_cons_self ..))
    obtain ⟨ys, hys, hlen⟩ := mapM_isSome fun z hz => hx z (List.mem_cons_of_mem x hz)
    exact ⟨y :: ys, mapM_cons_eq_some.mpr ⟨y, ys, hy, hys, rfl⟩, by rw [List.length_cons, List.length_cons, hlen]⟩

/-- Every identifier that the scope allows has a value. -/
def Known (m : Module) (scope : List Text) (E : Env V) : Prop :=
  ∀ id, IsGlobal m id ∨ id ∈ scope → (E id).isSome = true

/-- A call on the line has an outcome for any arguments, with a value if its callee returns one. -/
def Completes (m : Module) (run : Callees V) (l : Line) : Prop :=
  l.isCall = true → ∃ call f, Call.ofLine l = .ok call ∧ callee? m call.callee = some f ∧
    ∀ vs T, vs.length = call.arguments.length →
      ∃ out, run f vs T = some out ∧ out.returned.isSome = f.returnValue?.isSome

theorem Known.setResult (h : Known m scope E) {d given : Option Text} {r : Option V}
    (hd : ∀ id ∈ given, d = some id ∧ r.isSome = true) : Known m (scope ++ given.toList) (E.setResult d r) := by
  have keeps : ∀ id, (E id).isSome = true → ((E.setResult d r) id).isSome = true := by
    intro id hid
    cases d with
    | none => exact hid
    | some d =>
      cases r with
      | none => exact hid
      | some v =>
        by_cases he : id = d
        · rw [he, Env.setResult_self]
          rfl
        · rwa [Env.setResult_of_ne fun heq => he (Option.some.inj heq).symm]
  intro id hid
  by_cases hg : id ∈ given
  · obtain ⟨rfl, hr⟩ := hd id hg
    obtain ⟨v, rfl⟩ := Option.isSome_iff_exists.mp hr
    rw [Env.setResult_self]
    rfl
  · refine keeps id (h id (hid.imp_right fun hs => ?_))
    rcases List.mem_append.mp hs with hs | hs
    · exact hs
    · exact absurd (by simpa using hs) hg

theorem step_isSome (atomic : l.Atomic) (spaced : l.WellSpaced) (hcall : Completes m run l) (known : Known m scope E)
    (uses : ∀ id ∈ l.uses, IsGlobal m id ∨ id ∈ scope) :
    ∃ s, step I m run l ⟨E, T⟩ = some s ∧ Known m (scope ++ (m.gives l).toList) s.env := by
  cases hl : l.isCall with
  | true =>
    obtain ⟨call, f, hline, hf, hrun⟩ := hcall hl
    rw [Line.uses_of_call hl hline] at uses
    obtain ⟨vs, hvs, hlen⟩ := mapM_isSome (h := E) fun x (hx : x ∈ call.arguments) =>
      known x (uses x (List.mem_cons_of_mem _ hx))
    obtain ⟨out, hout, hreturned⟩ := hrun vs T hlen
    refine ⟨_, (step_call_eq_some hl).mpr ⟨call, f, vs, out, hline, hf, hvs, hout, rfl⟩, known.setResult fun id hid => ?_⟩
    have hd : l.defined? = some id := Module.gives_eq_some hid
    rw [(Call.ofLine_eq_ok.mp hline).1] at hd
    refine ⟨hd, ?_⟩
    have void : m.callsVoid l = f.returnValue?.isNone := by
      rw [Module.callsVoid, Line.callee?_of_call hl hline, Option.bind_some, hf]
      rfl
    rw [hreturned]
    by_contra hne
    rw [Option.mem_def, Module.gives, if_pos] at hid
    · cases hid
    · rw [void]
      simpa using hne
  | false =>
    rw [Line.uses_of_not_call hl] at uses
    have value : ∀ t ∈ l.operands, (E.operand t).isSome = true := by
      intro t ht
      rw [Env.operand]
      by_cases hs : t.head? = some Text.sigil
      · have plain : Text.IsPlainIdent t := (atomic t ht).resolve_right fun h => h (List.mem_of_mem_head? hs)
        rw [if_pos hs, Option.isSome_map]
        exact known t (uses t (Line.mem_operandIds_of_plain spaced ht plain))
      · rw [if_neg hs]
        rfl
    obtain ⟨os, hos, -⟩ := mapM_isSome value
    refine ⟨_, (step_instruction_eq_some hl).mpr ⟨os, hos, rfl⟩, known.setResult fun id hid => ?_⟩
    exact ⟨Module.gives_eq_some hid, rfl⟩

/-- Scoped lines run to the end, and what they give has a value then. -/
theorem exec_isSome (hscoped : m.ScopedFrom scope ls) (atomic : ∀ l ∈ ls, l.Atomic) (spaced : ∀ l ∈ ls, l.WellSpaced)
    (hcalls : ∀ l ∈ ls, Completes m run l) (known : Known m scope E) :
    ∃ s, exec I m run ls ⟨E, T⟩ = some s ∧ Known m (scope ++ ls.filterMap m.gives) s.env := by
  induction ls generalizing scope E T with
  | nil => exact ⟨⟨E, T⟩, rfl, by simpa using known⟩
  | cons l ls ih =>
    rw [List.forall_mem_cons] at atomic spaced hcalls
    obtain ⟨uses, -, rest⟩ := hscoped
    obtain ⟨s₁, hl, known₁⟩ := step_isSome (I := I) (T := T) atomic.1 spaced.1 hcalls.1 known uses
    obtain ⟨s, hs, known'⟩ := ih (E := s₁.env) (T := s₁.trace) rest atomic.2 spaced.2 hcalls.2 known₁
    refine ⟨s, Option.bind_eq_some_iff.mpr ⟨s₁, hl, hs⟩, ?_⟩
    have next : scope ++ (l :: ls).filterMap m.gives = scope ++ (m.gives l).toList ++ ls.filterMap m.gives := by
      cases hg : m.gives l <;> simp [hg]
    rwa [next]

/-! ## Functions have outcomes -/

theorem known_parameters {ids : List Text} (hlen : vs.length = ids.length) :
    Known m ids ((globals m G).setAll ids vs) := by
  intro id hid
  rw [Env.setAll, Option.isSome_or, Bool.or_eq_true]
  rcases hid with hg | hid
  · refine Or.inr ?_
    rw [globals, if_pos hg]
    rfl
  · refine Or.inl (List.lookup_isSome_iff.mpr ?_)
    have keys : (ids.zip vs).map Prod.fst = ids := List.map_fst_zip (Nat.le_of_eq hlen.symm)
    rw [← keys] at hid
    obtain ⟨⟨a, v⟩, hmem, rfl⟩ := List.mem_map.mp hid
    exact ⟨_, hmem, by simp⟩

/-- A function has an outcome if the calls in its body have one. -/
theorem invoke_isSome (w : m.WellScoped) (hf : f ∈ m.functions) (hlen : vs.length = f.parameterIds.length)
    (hcalls : ∀ l ∈ f.bodyLines, Completes m (invoke I m (globals m G) depth) l) :
    ∃ out, invoke I m (globals m G) (depth + 1) f vs T = some out ∧ out.returned.isSome = f.returnValue?.isSome := by
  obtain ⟨q, hq, rfl, -⟩ := (w.straight f hf).parts
  have spaced : ∀ l ∈ q.function.lines, l.WellSpaced := fun l hl => w.spaced l (Module.mem_lines_of_function hf hl)
  have hscoped := (w.inScope _ hf).body
  rw [hq.afterLabel_eq, Module.scopedFrom_append] at hscoped
  rw [hq.bodyLines_eq] at hcalls
  obtain ⟨s, hs, known⟩ := exec_isSome (I := I) (T := T) hscoped.1 (fun l hl => w.atomic _ hf l (Parts.body_subset hl))
    (fun l hl => spaced l (Parts.body_subset hl)) hcalls (known_parameters (G := G) hlen)
  have value : ∀ id ∈ q.function.returnValue?, (s.env id).isSome = true := by
    intro id hid
    refine known id (hscoped.2.1 id ?_)
    rw [Line.uses_of_not_call hq.isCall_eq_false.2.2.1, hq.operandIds_exit]
    rw [hq.returnValue?_eq] at hid
    split at hid
    · exact List.mem_of_mem_head? hid
    · cases hid
  refine ⟨⟨s.trace, q.function.returnValue?.bind s.env⟩, invoke_succ_eq_some.mpr ⟨hlen.symm, s, ?_, ?_⟩, ?_⟩
  · rwa [hq.bodyLines_eq]
  · exact hq.leave_eq_some.mpr ⟨rfl, value⟩
  · cases hr : q.function.returnValue? with
    | none => rfl
    | some id => exact value id hr

/-! ## Calls that unfold have outcomes -/

/-- Where calls unfold, there is a depth at which each of them has an outcome. -/
theorem Module.Unfolds.completes (w : m.WellScoped)
    (readable : ∀ f ∈ m.functions, ∀ l ∈ f.lines, l.isCall = true → ∃ call, Call.ofLine l = .ok call)
    {ss : List CallSite} {n : Nat} (h : m.Unfolds p ss n) : ∃ depth, ∀ s ∈ ss, ∃ f, callee? m s.callee = some f ∧
      ∀ (vs : List V) T, vs.length = s.arity → ∃ out, invoke I m (globals m G) depth f vs T = some out ∧
        out.returned.isSome = f.returnValue?.isSome := by
  induction h with
  | nil => exact ⟨0, fun s hs => (by cases hs)⟩
  | @cons s ss f below rest hr _ _ ihBelow ihRest =>
    obtain ⟨inner, hinner⟩ := ihBelow
    obtain ⟨later, hlater⟩ := ihRest
    refine ⟨max (inner + 1) later, List.forall_mem_cons.mpr ⟨⟨f, ?_, fun vs T hlen => ?_⟩, fun s' hs' => ?_⟩⟩
    · exact callee?_of_resolve (resolve_eq_ok.mpr hr.1)
    · have hf := plain_mem_functions hr.plain.1
      have arity : vs.length = f.parameterIds.length := by
        rw [Function.length_parameterIds hr.2.named, hr.2.arity, hlen]
      have hcalls : ∀ l ∈ f.bodyLines, Completes m (invoke I m (globals m G) inner) l := by
        intro l hl hcall
        obtain ⟨call, hline⟩ := readable f hf l (Function.bodyLines_subset hl) hcall
        obtain ⟨g, hg, hrun⟩ := hinner _ (List.mem_filterMap.mpr ⟨l, hl, site?_of_call hcall hline⟩)
        exact ⟨call, g, hline, hg, hrun⟩
      obtain ⟨out, hout, hreturned⟩ := invoke_isSome w hf arity hcalls
      exact ⟨out, invoke_mono (Nat.le_max_left ..) hout, hreturned⟩
    · obtain ⟨g, hg, hrun⟩ := hlater s' hs'
      refine ⟨g, hg, fun vs T hlen => ?_⟩
      obtain ⟨out, hout, hreturned⟩ := hrun vs T hlen
      exact ⟨out, invoke_mono (Nat.le_max_right ..) hout, hreturned⟩

end Progress

/-! ## A run unfolds the calls of main -/

section Unfolding

variable {p : Text} {m : Module} {copied copied' : List Text} {ls calls last : List Line} {e : Expansion}
  {g : Text → Text} {f : Function} {l : Line} {copy : Nat} {id : Text}

theorem not_named_of_argument (w : m.WellScoped) (hf : f ∈ m.functions) (hl : l ∈ f.lines) (hid : id ∈ l.arguments) :
    ¬ m.Named id :=
  w.not_named_of_uses hf hl (Line.arguments_subset_uses hid)

/-- A copy gives the name of a function to nothing else. -/
theorem nameIn_of_named (w : m.WellScoped) (h : m.Named (f.nameIn copy id)) : f.nameIn copy id = id := by
  refine (Function.nameIn_eq_or copy id).resolve_right fun he => ?_
  have plain := w.named_unsuffixed h
  rw [he, Inlining.isCopyName_append_copySuffix] at plain
  cases plain

theorem returnValue_not_named (w : m.WellScoped) (hf : f ∈ m.functions) (h : f.returnValue? = some id) :
    ¬ m.Named id := by
  obtain ⟨q, hq, rfl, -⟩ := (w.straight f hf).parts
  refine w.not_named_of_uses hf Parts.exit_mem ?_
  rw [Line.uses_of_not_call hq.isCall_eq_false.2.2.1, hq.operandIds_exit]
  rw [hq.returnValue?_eq] at h
  split at h
  · exact List.mem_of_mem_head? h
  · cases h

/-- No rename of a pass brings in the name of a function. -/
theorem Expands.new_not_named [KeyOrder] (w : m.WellScoped) (h : Expands p m copied ls copied' e)
    (free : ∀ l ∈ ls, ∀ x ∈ l.arguments, ¬ m.Named x) : ∀ r ∈ e.renames, ¬ m.Named r.new := by
  intro r hr hn
  obtain ⟨l, call, f, copy, c, hr⟩ := h.mem_renames hr
  rcases Function.mem_copyRenames hr with ⟨-, -, -, hx⟩ | ⟨value, hvalue, rfl⟩
  · exact free l c.mem r.new (by rwa [Line.arguments_of_call c.isCall c.read]) hn
  · have same := nameIn_of_named w hn
    refine returnValue_not_named w (Module.plain_mem_functions c.plain) hvalue ?_
    rwa [show (⟨call.result, f.nameIn copy value⟩ : Rename).new = value from same] at hn

/-- Where a renaming brings in no name of a function, a copy calls what the body calls if all
    its callees are functions. -/
theorem sites_copyLines [KeyOrder] (w : m.WellScoped) (hf : f ∈ m.plainFunctions)
    (hg : ∀ id, m.Named (g id) → g id = id) (plain : ∀ l ∈ f.copyLines copy, ∀ id ∈ l.ids, Text.IsPlainIdent (g id))
    (named : ∀ l ∈ f.copyLines copy, ∀ s ∈ (l.renameIds g).site?, m.Named s.callee) :
    ((f.copyLines copy).map (Line.renameIds g)).filterMap Line.site? = f.sites := by
  rw [w.tidy.copyLines hf, List.map_map, List.filterMap_map, Function.sites]
  refine List.filterMap_congr fun k hk => ?_
  have hmem : k.renameIds (f.nameIn copy) ∈ f.copyLines copy := (w.tidy.mem_copyLines hf).mpr ⟨k, hk, rfl⟩
  have spaced := w.tidy.spaced_plain hf k (Function.bodyLines_subset hk)
  have own := Function.plain_nameIn (f := f) spaced copy
  have named := named _ hmem
  show ((k.renameIds (f.nameIn copy)).renameIds g).site? = k.site?
  rw [site?_renameIds (spaced.renameIds own) (plain _ hmem), site?_renameIds spaced own] at named ⊢
  cases hs : k.site? with
  | none => rfl
  | some s =>
    rw [hs] at named
    have outer : m.Named (g (f.nameIn copy s.callee)) := named _ rfl
    have inner := hg _ outer
    rw [inner] at outer
    rw [Option.map_some, Option.map_some, inner, nameIn_of_named w outer]

/-- Where renames bring in no name of a function, the calls of functions in an expansion are
    those of the bodies that take the place of main's calls. -/
theorem Expands.level [KeyOrder] (w : m.WellScoped) (h : Expands p m copied ls copied' e) (hg : ∀ id, m.Named (g id) → g id = id)
    (spaced : ∀ l ∈ e.lines, l.WellSpaced) (plain : ∀ l ∈ e.lines, ∀ id ∈ l.ids, Text.IsPlainIdent (g id)) :
    ∃ fs, List.Forall₂ (m.Replaces p) (ls.filterMap Line.site?) fs ∧
      ((∀ l ∈ e.lines, ∀ s ∈ (l.renameIds g).site?, m.Named s.callee) →
        (e.lines.map (Line.renameIds g)).filterMap Line.site? = fs.flatMap Function.sites) := by
  induction h with
  | nil copied => exact ⟨[], .nil, fun _ => rfl⟩
  | @keep l ls copied copied' e hcall _ ih =>
    rw [List.forall_mem_cons] at spaced plain
    obtain ⟨fs, hfs, hsites⟩ := ih spaced.2 plain.2
    have quiet : (l.renameIds g).site? = none := site?_of_not_call (by rwa [spaced.1.isCall_renameIds plain.1])
    refine ⟨fs, by rwa [List.filterMap_cons_none (site?_of_not_call hcall)], fun named => ?_⟩
    rw [List.map_cons, List.filterMap_cons_none quiet, hsites fun k hk => named k (List.mem_cons_of_mem l hk)]
  | @copy l ls copied copied' e call f hcall hline hres hcopy _ ih =>
    rw [List.forall_mem_append] at spaced plain
    obtain ⟨fs, hfs, hsites⟩ := ih spaced.2 plain.2
    have hf := (Module.plain_of_resolve hres).1
    refine ⟨f :: fs, ?_, fun named => ?_⟩
    · rw [List.filterMap_cons_some (site?_of_call hcall hline)]
      exact .cons (replaces_iff.mpr ⟨hres, hcopy⟩) hfs
    · rw [List.forall_mem_append] at named
      rw [List.map_append, List.filterMap_append, hsites named.2, List.flatMap_cons]
      rw [sites_copyLines w hf hg plain.1 named.1]

theorem Expands.composed_named [KeyOrder] (w : m.WellScoped) (h : Expands p m copied ls copied' e)
    (free : ∀ l ∈ ls, ∀ x ∈ l.arguments, ¬ m.Named x) (hn : m.Named (Rename.composed e.renames id)) :
    Rename.composed e.renames id = id := by
  refine (Rename.composed_eq_or_mem e.renames id).resolve_right ?_
  rintro ⟨r, hr, he⟩
  exact h.new_not_named w free r hr (he ▸ hn)

/-- A pass keeps the names of functions out of the arguments of main's calls. -/
theorem Expands.arguments_not_named [KeyOrder] (w : m.WellScoped) (h : Expands p m copied ls copied' e)
    (hls : ∀ l ∈ ls, l.WellSpaced) (free : ∀ l ∈ ls, ∀ x ∈ l.arguments, ¬ m.Named x) :
    ∀ l ∈ e.renamed, ∀ x ∈ l.arguments, ¬ m.Named x := by
  have inner : ∀ l ∈ e.lines, ∀ x ∈ l.arguments, ¬ m.Named x := by
    refine h.forall_lines free fun f hf copy l hl x hx hn => ?_
    obtain ⟨k, hk, spaced, named, rfl⟩ := w.tidy.of_mem_copyLines hf hl
    rw [Line.arguments_renameIds spaced named] at hx
    obtain ⟨y, hy, rfl⟩ := List.mem_map.mp hx
    exact not_named_of_argument w (Module.plain_mem_functions hf) (Function.bodyLines_subset hk) hy (nameIn_of_named w hn ▸ hn)
  intro l hl x hx hn
  obtain ⟨k, hk, rfl⟩ := List.mem_map.mp hl
  rw [Line.arguments_renameIds (h.spaced w.tidy hls k hk) (h.plain_composed w.tidy hls hk)] at hx
  obtain ⟨y, hy, rfl⟩ := List.mem_map.mp hx
  exact inner k hk y hy (h.composed_named w free hn ▸ hn)

/-- The calls that the passes of a run replace are those that the calls of main unfold into. -/
theorem Runs.unfolds [KeyOrder] (w : m.WellScoped) (h : Runs p m copied ls calls last) (hls : ∀ l ∈ ls, l.WellSpaced)
    (free : ∀ l ∈ ls, ∀ x ∈ l.arguments, ¬ m.Named x) : ∃ n, m.Unfolds p (ls.filterMap Line.site?) n := by
  induction h with
  | @done copied ls quiet =>
    have none' : ls.filterMap Line.site? = [] :=
      List.filterMap_eq_nil_iff.mpr fun l hl => site?_of_not_call (quiet l hl)
    rw [none']
    exact ⟨0, .nil⟩
  | @pass copied copied' copied'' ls calls last e he _ _ ih =>
    obtain ⟨k, hk⟩ := ih (he.renamed_spaced w.tidy hls) (he.arguments_not_named w hls free)
    obtain ⟨fs, hfs, hsites⟩ := he.level w (fun id hn => he.composed_named w free hn) (he.spaced w.tidy hls)
      fun l hl => he.plain_composed w.tidy hls hl
    refine ⟨_, Module.unfolds_iff_level.mpr ⟨fs, k, hfs, ?_, rfl⟩⟩
    rw [← hsites fun l hl s hs => ?_]
    · exact hk
    · have met : s ∈ e.renamed.filterMap Line.site? :=
        List.mem_filterMap.mpr ⟨l.renameIds (Rename.composed e.renames), List.mem_map_of_mem hl, hs⟩
      obtain ⟨f, -, hr, -⟩ := hk.mem met
      exact Module.named_of_plain hr.plain.1 hr.plain.2

end Unfolding

end SpirvLink
