/-
  SpirvLink.Proofs.Inlining.Hygiene — the renames of a pass do what each of them says.

  Where no function uses what belongs to another, and no call takes its own or a later
  result, main is `Hygienic` between passes: it uses no name of a copy still to be made and
  no name of a parameter. Then the renames of a pass are `Chained` (`Expands.chained`): what
  they take away is gone after the pass (`Expands.renamed_ids`), and a parameter ends as its
  argument does. A pass keeps main hygienic (`Hygienic.pass`).
-/

import SpirvLink.Proofs.Inlining.Pass

namespace SpirvLink

/-! ## Arguments before results -/

/-- Under a renaming, no call takes its own result or that of a later call. -/
def ReadyUnder (g : Text → Text) (ls : List Line) : Prop :=
  (∀ l ∈ ls, ∀ r ∈ l.result?, g r ∉ l.arguments.map g) ∧
    ls.Pairwise fun l later => ∀ r ∈ later.result?, g r ∉ l.arguments.map g

instance (g : Text → Text) (ls : List Line) : Decidable (ReadyUnder g ls) :=
  inferInstanceAs (Decidable (_ ∧ _))

/-- No call takes its own result or that of a later call. -/
abbrev ArgumentsReady (ls : List Line) : Prop :=
  ReadyUnder id ls

theorem readyUnder_sublist {g : Text → Text} {ls ls' : List Line} (h : ReadyUnder g ls) (hs : ls'.Sublist ls) :
    ReadyUnder g ls' :=
  ⟨fun l hl => h.1 l (hs.subset hl), h.2.sublist hs⟩

theorem readyUnder_append {g : Text → Text} {ls ls' : List Line} : ReadyUnder g (ls ++ ls') ↔
    ReadyUnder g ls ∧ ReadyUnder g ls' ∧
      ∀ l ∈ ls, ∀ later ∈ ls', ∀ r ∈ later.result?, g r ∉ l.arguments.map g := by
  unfold ReadyUnder
  rw [List.forall_mem_append, List.pairwise_append]
  constructor
  · rintro ⟨⟨h1, h2⟩, h3, h4, h5⟩
    exact ⟨⟨h1, h3⟩, ⟨h2, h4⟩, h5⟩
  · rintro ⟨⟨h1, h3⟩, ⟨h2, h4⟩, h5⟩
    exact ⟨⟨h1, h2⟩, h3, h4, h5⟩

theorem readyUnder_map {g s : Text → Text} {ls : List Line} (hls : ∀ l ∈ ls, l.WellSpaced)
    (hs : ∀ l ∈ ls, ∀ id ∈ l.ids, Text.IsPlainIdent (s id)) (h : ReadyUnder (g ∘ s) ls) :
    ReadyUnder g (ls.map (Line.renameIds s)) := by
  have line : ∀ l ∈ ls, ∀ later ∈ ls, (∀ r ∈ later.result?, (g ∘ s) r ∉ l.arguments.map (g ∘ s)) →
      ∀ r ∈ (later.renameIds s).result?, g r ∉ (l.renameIds s).arguments.map g := by
    intro l hl later hlater hne r hr
    rw [Line.result?_renameIds (hls later hlater) (hs later hlater)] at hr
    obtain ⟨r', hr', rfl⟩ := Option.map_eq_some_iff.mp hr
    rw [Line.arguments_renameIds (hls l hl) (hs l hl), List.map_map]
    exact hne r' hr'
  refine ⟨fun l hl => ?_, List.pairwise_map.mpr (h.2.imp_of_mem fun hl hk => line _ hl _ hk)⟩
  obtain ⟨k, hk, rfl⟩ := List.mem_map.mp hl
  exact line k hk k hk (h.1 k hk)

/-- A renaming that tells results from the other arguments keeps the arguments ready. -/
theorem readyUnder_of_injective {g : Text → Text} {ls : List Line} (h : ArgumentsReady ls)
    (inj : ∀ l ∈ ls, ∀ x ∈ l.arguments, ∀ k ∈ ls, ∀ r ∈ k.result?, g x = g r → x = r) : ReadyUnder g ls := by
  have line : ∀ l ∈ ls, ∀ k ∈ ls, (∀ r ∈ k.result?, id r ∉ l.arguments.map id) →
      ∀ r ∈ k.result?, g r ∉ l.arguments.map g := by
    intro l hl k hk hne r hr hmem
    obtain ⟨x, hx, heq⟩ := List.mem_map.mp hmem
    refine hne r hr ?_
    rw [List.map_id]
    exact inj l hl x hx k hk r hr heq ▸ hx
  exact ⟨fun l hl => line l hl l hl (h.1 l hl), h.2.imp_of_mem fun hl hk => line _ hl _ hk⟩

/-! ## Functions that stay apart -/

namespace Module

variable {m : Module} {copied : List Text} {id : Text}

/-- No function or main uses what belongs to another one. -/
def Apart (m : Module) : Prop :=
  ∀ b ∈ m.blocks, ∀ c ∈ m.blocks, c.hasBody = true → b ≠ c →
    ∀ id ∈ b.localIds, ∀ l ∈ c.lines, id ∉ l.operandIds

instance (m : Module) : Decidable m.Apart :=
  inferInstanceAs (Decidable (∀ _ ∈ _, _))

theorem Tidy.localIds_defined (t : m.Tidy) {b : Block} (hb : b ∈ m.blocks) (hid : id ∈ b.localIds) :
    id ∈ b.lines.filterMap Line.defined? := by
  obtain ⟨kind, lines⟩ := b
  cases kind with
  | function => exact t.owned_defined (f := ⟨lines⟩) (mem_plainFunctions.mpr hb) hid
  | main => exact ((List.tail_sublist lines).filterMap _).subset hid
  | _ => cases hid

theorem Apart.not_mem_ids (t : m.Tidy) (a : m.Apart) {b c : Block} (hb : b ∈ m.blocks) (hc : c ∈ m.blocks)
    (hbody : c.hasBody = true) (hne : b ≠ c) (hid : id ∈ b.localIds) {l : Line} (hl : l ∈ c.lines) :
    id ∉ l.ids := by
  rw [(t.spaced l (List.mem_flatMap.mpr ⟨c, hc, hl⟩)).ids_eq, List.mem_append, not_or]
  refine ⟨fun hd => hne (t.once.block_eq hb hc (t.localIds_defined hb hid) ?_), a b hb c hc hbody hne id hid l hl⟩
  exact List.mem_filterMap.mpr ⟨l, hl, by simpa using hd⟩

theorem ParameterName.owned_or (h : m.ParameterName id) :
    (∃ f ∈ m.plainFunctions, id ∈ f.owned) ∨ Inlining.isCopyName id = true := by
  obtain ⟨f, hf, q, hq, copy, -, rfl⟩ := h
  rcases Function.nameIn_eq_or copy q with he | he
  · exact Or.inl ⟨f, hf, by rw [he]; exact Function.mem_owned_of_parameter hq⟩
  · exact Or.inr (he ▸ Inlining.isCopyName_append_copySuffix q copy)

/-- A name that copies bring in is on a line of a function only if the function owns it. -/
theorem Apart.owned_of_mem_ids (t : m.Tidy) (a : m.Apart) {c : Block} (hc : c ∈ m.blocks)
    (hbody : c.hasBody = true) {l : Line} (hl : l ∈ c.lines) (hid : id ∈ l.ids)
    (h : (∃ f ∈ m.plainFunctions, id ∈ f.owned) ∨ Inlining.isCopyName id = true) :
    c.kind = .function ∧ id ∈ (⟨c.lines⟩ : Function).owned := by
  rcases h with ⟨g, hg, ho⟩ | hs
  · have hb := mem_plainFunctions.mp hg
    by_cases hne : (⟨.function, g.lines⟩ : Block) = c
    · rw [← hne]
      exact ⟨rfl, ho⟩
    · exact absurd hid (a.not_mem_ids t hb hc hbody hne ho hl)
  · rw [t.unsuffixed l (List.mem_flatMap.mpr ⟨c, hc, hl⟩) id hid] at hs
    cases hs

namespace Foreign

theorem not_upcoming (t : m.Tidy) (a : m.Apart) (h : m.Foreign id) : ¬ m.Upcoming copied id := by
  intro hu
  obtain ⟨f, hf, hne, l, hl, hid⟩ := h
  exact hne (a.owned_of_mem_ids t (mem_plainFunctions.mp hf) rfl hl hid hu.owned_or).2

theorem not_parameterName (t : m.Tidy) (a : m.Apart) (h : m.Foreign id) : ¬ m.ParameterName id := by
  intro hq
  obtain ⟨f, hf, hne, l, hl, hid⟩ := h
  exact hne (a.owned_of_mem_ids t (mem_plainFunctions.mp hf) rfl hl hid hq.owned_or).2

theorem unsuffixed (t : m.Tidy) (h : m.Foreign id) : Inlining.isCopyName id = false := by
  obtain ⟨f, hf, -, l, hl, hid⟩ := h
  exact t.unsuffixed l (mem_lines_of_plain hf hl) id hid

end Foreign

end Module

/-! ## Main between passes -/

/-- What main is like between passes where functions stay apart. -/
structure Hygienic (m : Module) (copied : List Text) (ls : List Line) : Prop extends Sound m copied ls where
  ready : ArgumentsReady ls
  unborn : ∀ l ∈ ls, ∀ id ∈ l.ids, ¬ m.Upcoming copied id
  noParameter : ∀ l ∈ ls, ∀ id ∈ l.ids, ¬ m.ParameterName id
  results : ∀ l ∈ ls, ∀ r ∈ l.result?, ¬ m.Foreign r

section Pass

variable {p : Text} {m : Module} {copied copied' : List Text} {l : Line} {ls : List Line} {e : Expansion}
  {call : Call} {f : Function} {id : Text}

theorem Hygienic.tail (hy : Hygienic m copied (l :: ls)) : Hygienic m copied ls :=
  ⟨hy.toSound.tail, readyUnder_sublist hy.ready (List.sublist_cons_self l ls),
    fun k hk => hy.unborn k (List.mem_cons_of_mem l hk), fun k hk => hy.noParameter k (List.mem_cons_of_mem l hk),
    fun k hk => hy.results k (List.mem_cons_of_mem l hk)⟩

theorem Hygienic.mono (hy : Hygienic m copied ls) (hle : ∀ name, copied.count name ≤ copied'.count name) :
    Hygienic m copied' ls :=
  ⟨hy.toSound.mono hle, hy.ready, fun l hl id hid hu => hy.unborn l hl id hid (hu.anti hle), hy.noParameter,
    hy.results⟩

/-- A result is no name of a copy still to be made, nor one that a function uses. -/
theorem Hygienic.result (hy : Hygienic m copied ls) (hl : l ∈ ls) (hr : l.result? = some id) :
    ¬ m.Upcoming copied id ∧ ¬ m.Foreign id ∧ ¬ m.ParameterName id := by
  have hd := (Line.result?_eq_some hr).2
  have hid := (hy.spaced l hl).mem_ids_of_defined hd
  exact ⟨hy.unborn l hl id hid, hy.results l hl id hr, hy.noParameter l hl id hid⟩

namespace Expands

variable [KeyOrder]

/-- A pass keeps every name that no call of main defines and no copy of the pass makes. -/
theorem composed_of_settled (t : m.Tidy) (h : Expands p m copied ls copied' e) (hu : ¬ m.Made copied copied' id)
    (hr : ∀ l ∈ ls, l.result? ≠ some id) : Rename.composed e.renames id = id := by
  refine Rename.composed_of_not_mem fun hold => ?_
  obtain ⟨r, hr', rfl⟩ := List.mem_map.mp hold
  rcases h.olds t hr' with ⟨l, hl, hres⟩ | ⟨hm, -⟩
  · exact hr l hl hres
  · exact hu hm

end Expands

/-! ## One copy in a hygienic main -/

namespace Function

theorem olds_passed (hc : f.Copyable p call.arguments.length) (copy : Nat) :
    (f.passed copy call.arguments).map Rename.old = f.parameterIds.map (f.nameIn copy) := by
  have hlen : (f.parameterIds.map (f.nameIn copy)).length ≤ call.arguments.length := by
    rw [List.length_map, length_parameterIds hc.named]
    exact Nat.le_of_eq hc.arity
  rw [passed, ← List.map_uncurry_zip_eq_zipWith, List.map_map]
  exact List.map_fst_zip hlen

/-- Each parameter has an argument that it is to become. -/
theorem exists_argument (hc : f.Copyable p call.arguments.length) {q : Text} (hq : q ∈ f.parameterIds)
    (copy : Nat) : ∃ arg ∈ call.arguments, ⟨f.nameIn copy q, arg⟩ ∈ f.copyRenames copy call := by
  have hlen : f.parameterIds.length = call.arguments.length := (length_parameterIds hc.named).trans hc.arity
  obtain ⟨i, hi, rfl⟩ := List.mem_iff_getElem.mp hq
  refine ⟨call.arguments[i], List.getElem_mem _, List.mem_append_left _ ?_⟩
  rw [passed, ← List.map_uncurry_zip_eq_zipWith]
  refine List.mem_map.mpr ⟨(f.nameIn copy f.parameterIds[i], call.arguments[i]), ?_, rfl⟩
  have hzip : i < ((f.parameterIds.map (f.nameIn copy)).zip call.arguments).length := by
    rw [List.length_zip, List.length_map]
    omega
  exact List.mem_iff_getElem.mpr ⟨i, hzip, by simp⟩

end Function

/-- A name of a parameter in a copy of a body stands for a parameter of that body. -/
theorem Module.mem_parameterIds (t : m.Tidy) (a : m.Apart) (hf : f ∈ m.plainFunctions) {k : Line} (hk : k ∈ f.lines)
    (hid : id ∈ k.ids) {copy : Nat} (hpos : 0 < copy) (h : m.ParameterName (f.nameIn copy id)) : id ∈ f.parameterIds := by
  by_cases ho : id ∈ f.owned
  · obtain ⟨g, hg, q, hq, copy', hpos', heq⟩ := h
    obtain ⟨rfl, -, rfl⟩ := t.nameIn_injective hf hg ho (Function.mem_owned_of_parameter hq) hpos hpos' heq
    exact hq
  · rw [Function.nameIn_of_not_mem ho] at h
    exact absurd h (Module.Foreign.not_parameterName t a ⟨f, hf, ho, k, hk, hid⟩)

/-- Main is hygienic, and its first line is a call that a pass replaces by a copy of `f`. -/
structure CallsFirst (p : Text) (m : Module) (copied : List Text) (l : Line) (ls : List Line) (call : Call)
    (f : Function) : Prop where
  hygienic : Hygienic m copied (l :: ls)
  isCall : l.isCall = true
  read : Call.ofLine l = .ok call
  callee : Inlining.resolve m call.callee = .ok f
  copyable : f.Copyable p call.arguments.length

namespace CallsFirst

variable {r : Rename} {k : Line} {x : Text}

theorem plain (c : CallsFirst p m copied l ls call f) : f ∈ m.plainFunctions :=
  (Module.plain_of_resolve c.callee).1

theorem named (c : CallsFirst p m copied l ls call f) : f.name = .ok call.callee :=
  (Module.plain_of_resolve c.callee).2

theorem result? (c : CallsFirst p m copied l ls call f) : l.result? = some call.result :=
  Line.result?_of_call c.isCall c.read

theorem tail (c : CallsFirst p m copied l ls call f) : Hygienic m (call.callee :: copied) ls :=
  c.hygienic.tail.mono fun _ => List.count_le_count_cons ..

theorem result (c : CallsFirst p m copied l ls call f) :
    ¬ m.Upcoming copied call.result ∧ ¬ m.Foreign call.result ∧ ¬ m.ParameterName call.result :=
  c.hygienic.result (List.mem_cons_self ..) c.result?

theorem argument (c : CallsFirst p m copied l ls call f) (hx : x ∈ call.arguments) :
    ¬ m.Upcoming copied x ∧ ¬ m.ParameterName x := by
  have here : l ∈ l :: ls := List.mem_cons_self ..
  rw [← Line.arguments_of_call c.isCall c.read] at hx
  have hid := Line.arguments_subset (c.hygienic.spaced l here) hx
  exact ⟨c.hygienic.unborn l here x hid, c.hygienic.noParameter l here x hid⟩

/-- The call takes neither its own result nor that of a later call. -/
theorem not_argument (c : CallsFirst p m copied l ls call f) (hk : k ∈ l :: ls) (hr : k.result? = some x) :
    x ∉ call.arguments := by
  rw [← Line.arguments_of_call c.isCall c.read, ← List.map_id l.arguments]
  rcases List.mem_cons.mp hk with rfl | hk
  · exact c.hygienic.ready.1 k (List.mem_cons_self ..) x hr
  · exact (List.pairwise_cons.mp c.hygienic.ready.2).1 k hk x hr

theorem not_argument_result (c : CallsFirst p m copied l ls call f) : call.result ∉ call.arguments :=
  c.not_argument (List.mem_cons_self ..) c.result?

theorem made_or_foreign (t : m.Tidy) (c : CallsFirst p m copied l ls call f) (hk : k ∈ f.lines) (hid : id ∈ k.ids) :
    m.Made copied (call.callee :: copied) (f.nameIn (copied.count call.callee + 1) id) ∨
      (m.Foreign id ∧ f.nameIn (copied.count call.callee + 1) id = id) :=
  Module.made_or_foreign t copied c.plain c.named hk hid

/-- No call of main has a name of the copy as its result. -/
theorem result_ne (t : m.Tidy) (c : CallsFirst p m copied l ls call f) (hk : k ∈ f.lines) (hid : id ∈ k.ids)
    {j : Line} (hj : j ∈ l :: ls) : j.result? ≠ some (f.nameIn (copied.count call.callee + 1) id) := by
  intro hr
  obtain ⟨past, own, -⟩ := c.hygienic.result hj hr
  rcases c.made_or_foreign t hk hid with hm | ⟨hu, he⟩
  · exact past hm.1
  · exact own (he.symm ▸ hu)

/-- The copy takes away the result of the call and the names of its parameters. -/
theorem old (t : m.Tidy) (c : CallsFirst p m copied l ls call f)
    (hr : r ∈ f.copyRenames (copied.count call.callee + 1) call) :
    r.old = call.result ∨ (m.Made copied (call.callee :: copied) r.old ∧ m.ParameterName r.old) := by
  rcases Function.mem_copyRenames hr with ⟨q, hq, hold, -⟩ | ⟨value, -, rfl⟩
  · rw [hold]
    exact Or.inr ⟨Module.made_nameIn t copied c.plain c.named (Function.mem_owned_of_parameter hq), f, c.plain, q, hq, _,
      Nat.succ_pos _, rfl⟩
  · exact Or.inl rfl

/-- The copy brings in arguments of the call, names that it makes and names that functions use. -/
theorem new (t : m.Tidy) (c : CallsFirst p m copied l ls call f)
    (hr : r ∈ f.copyRenames (copied.count call.callee + 1) call) :
    r.new ∈ call.arguments ∨ m.Made copied (call.callee :: copied) r.new ∨ m.Foreign r.new := by
  rcases Function.mem_copyRenames hr with ⟨-, -, -, hnew⟩ | ⟨value, hv, rfl⟩
  · exact Or.inl hnew
  · obtain ⟨k, hk, hid⟩ := Function.mem_ids_of_returnValue hv
    exact Or.inr ((c.made_or_foreign t hk hid).imp_right fun ⟨hu, he⟩ => by rwa [he])

end CallsFirst

/-! ## The renames of a pass are chained -/

namespace CallsFirst

theorem chained_copy (t : m.Tidy) (c : CallsFirst p m copied l ls call f) :
    Rename.Chained (f.copyRenames (copied.count call.callee + 1) call) := by
  obtain ⟨-, -, noParam⟩ := c.result
  have param : ∀ q ∈ f.parameterIds, m.ParameterName (f.nameIn (copied.count call.callee + 1) q) :=
    fun q hq => ⟨f, c.plain, q, hq, _, Nat.succ_pos _, rfl⟩
  refine Rename.chained_append.mpr ⟨⟨fun r hr heq => ?_, ?_⟩, ⟨fun r hr heq => ?_, ?_⟩, fun r hr s hs => ?_⟩
  · obtain ⟨⟨q, hq, hold⟩, hnew⟩ := Function.mem_passed hr
    exact (c.argument hnew).2 (heq ▸ hold ▸ param q hq)
  · have olds : (f.passed (copied.count call.callee + 1) call.arguments).Pairwise fun r s => r.old ≠ s.old := by
      rw [← List.pairwise_map (f := Rename.old) (R := (· ≠ ·)), Function.olds_passed c.copyable]
      have owned := t.owned_nodup c.plain
      rw [Function.owned, List.nodup_append] at owned
      refine List.Nodup.map_on (fun q hq q' hq' heq => ?_) owned.1
      exact (t.nameIn_injective c.plain c.plain (List.mem_append_left _ hq) (List.mem_append_left _ hq')
        (Nat.succ_pos _) (Nat.succ_pos _) heq).2.2
    refine olds.imp_of_mem fun hr hs hne => ⟨fun heq => ?_, hne⟩
    obtain ⟨⟨q, hq, hold⟩, -⟩ := Function.mem_passed hs
    exact (c.argument (Function.mem_passed hr).2).2 (heq ▸ hold ▸ param q hq)
  · -- The value returned is a name of the copy, and no call has one as its result.
    obtain ⟨v, hv, rfl⟩ := Function.mem_returned hr
    obtain ⟨k, hk, hid⟩ := Function.mem_ids_of_returnValue hv
    exact c.result_ne t hk hid (List.mem_cons_self ..) (c.result?.trans (congrArg some heq.symm))
  · unfold Function.returned
    cases f.returnValue? with
    | none => exact .nil
    | some v => exact List.pairwise_singleton _ _
  · obtain ⟨⟨q, hq, hold⟩, hnew⟩ := Function.mem_passed hr
    obtain ⟨v, -, rfl⟩ := Function.mem_returned hs
    change r.new ≠ call.result ∧ r.old ≠ call.result
    exact ⟨fun heq => c.not_argument_result (heq ▸ hnew), fun heq => noParam (heq ▸ hold ▸ param q hq)⟩

/-- A rename of one copy brings in or takes away no name that a later rename takes away. -/
theorem chained_rest [KeyOrder] (t : m.Tidy) (a : m.Apart) (c : CallsFirst p m copied l ls call f)
    (hrest : Expands p m (call.callee :: copied) ls copied' e) :
    ∀ r ∈ f.copyRenames (copied.count call.callee + 1) call, ∀ s ∈ e.renames, r.new ≠ s.old ∧ r.old ≠ s.old := by
  intro r hr s hs
  rcases hrest.olds t hs with ⟨k, hk, hres⟩ | ⟨hm, hq⟩
  · -- The later rename takes away the result of a later call.
    have later : k ∈ l :: ls := List.mem_cons_of_mem l hk
    obtain ⟨past, own, -⟩ := c.hygienic.result later hres
    refine ⟨fun heq => ?_, fun heq => ?_⟩
    · rcases c.new t hr with hx | hm | hu
      · exact c.not_argument later hres (heq ▸ hx)
      · exact past (heq ▸ hm.1)
      · exact own (heq ▸ hu)
    · rcases c.old t hr with he | ⟨hm, -⟩
      · have once := c.hygienic.once
        rw [List.filterMap_cons_some (Line.result?_eq_some c.result?).2, List.nodup_cons] at once
        exact once.1 (List.mem_filterMap.mpr ⟨k, hk, he.symm.trans heq ▸ (Line.result?_eq_some hres).2⟩)
      · exact past (heq ▸ hm.1)
  · -- The later rename takes away a parameter of a later copy.
    refine ⟨fun heq => ?_, fun heq => ?_⟩
    · rcases c.new t hr with hx | hm' | hu
      · exact (c.argument hx).2 (heq ▸ hq)
      · exact hm'.2 (heq ▸ hm.1)
      · exact hu.not_upcoming t a (heq ▸ hm.1)
    · rcases c.old t hr with he | ⟨hm', -⟩
      · exact c.result.1 (he ▸ heq ▸ hm.of_rest.1)
      · exact hm'.2 (heq ▸ hm.1)

end CallsFirst

theorem Expands.chained [KeyOrder] (t : m.Tidy) (a : m.Apart) (hy : Hygienic m copied ls)
    (h : Expands p m copied ls copied' e) : Rename.Chained e.renames := by
  induction h with
  | nil copied => exact ⟨fun r hr => (by cases hr), .nil⟩
  | keep _ _ ih => exact ih hy.tail
  | copy hcall hline hres hcopy hrest ih =>
    have c := CallsFirst.mk hy hcall hline hres hcopy
    exact Rename.chained_append.mpr ⟨c.chained_copy t, ih c.tail, c.chained_rest t a hrest⟩

/-! ## What is gone after a pass -/

/-- A pass takes away the name of every parameter in the copies that it makes. -/
theorem Expands.mem_olds_of_made [KeyOrder] (t : m.Tidy) (h : Expands p m copied ls copied' e) (hm : m.Made copied copied' id)
    (hq : m.ParameterName id) : id ∈ e.renames.map Rename.old := by
  obtain ⟨g, hg, q, hq, copy, hpos, rfl⟩ := hq
  -- The name is one of a copy that was to come, and the pass makes every copy up to the last.
  obtain ⟨g', hg', name, hname, d, hd, copy', above, heq⟩ := hm.1
  obtain ⟨rfl, rfl, rfl⟩ := t.nameIn_injective hg hg' (Function.mem_owned_of_parameter hq) hd hpos (Nat.zero_lt_of_lt above) heq
  have upTo : copy ≤ copied'.count name := by
    have gone := hm.2
    rwa [Module.upcoming_nameIn t hg hname hd hpos, Nat.not_lt] at gone
  obtain ⟨l, call, f, c, rfl⟩ := h.exists_copy above upTo
  obtain rfl : g = f := by
    have hmem : g ∈ m.plainFunctions.filter (Function.isNamed call.callee) :=
      List.mem_filter.mpr ⟨hg, Function.isNamed_iff.mpr hname⟩
    rw [Module.resolve_eq_ok.mp c.callee] at hmem
    exact List.mem_singleton.mp hmem
  obtain ⟨arg, -, hr⟩ := Function.exists_argument c.copyable hq copy
  exact List.mem_map.mpr ⟨_, c.renames hr, rfl⟩

/-- The identifiers of main after a pass are those that it had, names that the copies made,
    and names that functions use and do not own; none of them is a name taken away. -/
theorem Expands.renamed_ids [KeyOrder] (t : m.Tidy) (a : m.Apart) (hy : Hygienic m copied ls)
    (h : Expands p m copied ls copied' e) (hl : l ∈ e.renamed) (hid : id ∈ l.ids) :
    id ∉ e.renames.map Rename.old ∧
      ((∃ k ∈ ls, id ∈ k.ids) ∨ (m.Made copied copied' id ∧ ¬ m.ParameterName id) ∨ m.Foreign id) := by
  obtain ⟨k, hk, rfl⟩ := List.mem_map.mp hl
  rw [Line.ids_renameIds fun i hi => (h.plain_composed t hy.spaced hk i hi).1] at hid
  obtain ⟨i, hi, rfl⟩ := List.mem_map.mp hid
  have gone := Rename.composed_not_mem_olds (h.chained t a hy) i
  have origin : (∃ k ∈ ls, Rename.composed e.renames i ∈ k.ids) ∨
      m.Made copied copied' (Rename.composed e.renames i) ∨ m.Foreign (Rename.composed e.renames i) := by
    rcases Rename.composed_eq_or_mem e.renames i with he | ⟨r, hr, he⟩
    · rw [he]
      exact h.ids t hk hi
    · rw [he]
      exact (h.news t hr).imp_left fun ⟨j, hj, hx⟩ => ⟨j, hj, Line.arguments_subset (hy.spaced j hj) hx⟩
  exact ⟨gone, origin.imp_right (Or.imp_left fun hm => ⟨hm, fun hq => gone (h.mem_olds_of_made t hm hq)⟩)⟩

/-! ## Arguments stay ready -/

namespace CallsFirst

/-! A pass turns the parameters of a copy into arguments, and all else in it keeps the name that
    the copy gives it. -/

theorem composed_parameter (t : m.Tidy) (c : CallsFirst p m copied l ls call f) (hq : id ∈ f.parameterIds) :
    Rename.composed (f.copyRenames (copied.count call.callee + 1) call)
      (f.nameIn (copied.count call.callee + 1) id) ∈ call.arguments := by
  obtain ⟨arg, harg, hr⟩ := Function.exists_argument c.copyable hq (copied.count call.callee + 1)
  have stays : arg ∉ (f.copyRenames (copied.count call.callee + 1) call).map Rename.old := by
    intro hold
    obtain ⟨s, hs, rfl⟩ := List.mem_map.mp hold
    rcases c.old t hs with he | ⟨-, hp⟩
    · exact c.not_argument_result (he ▸ harg)
    · exact (c.argument harg).2 hp
  rw [Rename.composed_old (c.chained_copy t) hr, Rename.composed_of_not_mem stays]
  exact harg

theorem composed_other (t : m.Tidy) (a : m.Apart) (c : CallsFirst p m copied l ls call f) {k : Line} (hk : k ∈ f.lines)
    (hid : id ∈ k.ids) (hq : id ∉ f.parameterIds) :
    Rename.composed (f.copyRenames (copied.count call.callee + 1) call)
      (f.nameIn (copied.count call.callee + 1) id) = f.nameIn (copied.count call.callee + 1) id := by
  refine Rename.composed_of_not_mem fun hold => ?_
  obtain ⟨r, hr, heq⟩ := List.mem_map.mp hold
  rcases c.old t hr with he | ⟨-, hp⟩
  · exact c.result_ne t hk hid (List.mem_cons_self ..) (c.result?.trans (congrArg some (he.symm.trans heq)))
  · exact hq (Module.mem_parameterIds t a c.plain hk hid (Nat.succ_pos _) (heq ▸ hp))

theorem composed_later [KeyOrder] (t : m.Tidy) (a : m.Apart) (c : CallsFirst p m copied l ls call f)
    (hrest : Expands p m (call.callee :: copied) ls copied' e) {k : Line} (hk : k ∈ f.lines) (hid : id ∈ k.ids) :
    Rename.composed e.renames (f.nameIn (copied.count call.callee + 1) id) =
      f.nameIn (copied.count call.callee + 1) id := by
  refine hrest.composed_of_settled t (fun hm => ?_) fun j hj => c.result_ne t hk hid (List.mem_cons_of_mem l hj)
  rcases c.made_or_foreign t hk hid with hm' | ⟨hu, he⟩
  · exact hm'.2 hm.1
  · exact (he.symm ▸ hu : m.Foreign (f.nameIn _ id)).not_upcoming t a hm.1

/-- The renames of the copy keep every name that it does not make, the result of the call apart. -/
theorem composed_of_ne (t : m.Tidy) (c : CallsFirst p m copied l ls call f)
    (hm : ¬ m.Made copied (call.callee :: copied) id) (hne : id ≠ call.result) :
    Rename.composed (f.copyRenames (copied.count call.callee + 1) call) id = id := by
  refine Rename.composed_of_not_mem fun hold => ?_
  obtain ⟨r, hr, rfl⟩ := List.mem_map.mp hold
  exact (c.old t hr).elim hne fun h => hm h.1

end CallsFirst

/-- The renames of the earlier calls of a pass: they keep the names to come and the foreign
    ones, and bring in no name to come. -/
structure Settles (m : Module) (copied : List Text) (g : Text → Text) : Prop where
  upcoming : ∀ id, m.Upcoming copied id → g id = id
  foreign : ∀ id, m.Foreign id → g id = id
  past : ∀ id, ¬ m.Upcoming copied id → ¬ m.Upcoming copied (g id)

/-- The renames of one more copy settle its names too. -/
theorem Settles.copy (t : m.Tidy) (a : m.Apart) {g : Text → Text} (hg : Settles m copied g)
    (c : CallsFirst p m copied l ls call f) :
    Settles m (call.callee :: copied)
      (g ∘ Rename.composed (f.copyRenames (copied.count call.callee + 1) call)) := by
  have more : ∀ id, m.Upcoming (call.callee :: copied) id → m.Upcoming copied id := fun id hu =>
    hu.anti fun _ => List.count_le_count_cons ..
  obtain ⟨resultPast, resultOwn, -⟩ := c.result
  refine ⟨fun id hu => ?_, fun id hf => ?_, fun id hne => ?_⟩
  · have keeps := c.composed_of_ne t (fun hm => hm.2 hu) fun he => resultPast (he ▸ more id hu)
    exact (congrArg g keeps).trans (hg.upcoming id (more id hu))
  · have keeps := c.composed_of_ne t (fun hm => hf.not_upcoming t a hm.1) fun he => resultOwn (he ▸ hf)
    exact (congrArg g keeps).trans (hg.foreign id hf)
  · have past : ¬ m.Upcoming (call.callee :: copied)
        (Rename.composed (f.copyRenames (copied.count call.callee + 1) call) id) := by
      rcases Rename.composed_eq_or_mem (f.copyRenames (copied.count call.callee + 1) call) id with he | ⟨r, hr, he⟩
      · rwa [he]
      · rw [he]
        rcases c.new t hr with hx | hm | hf
        · exact fun hu => (c.argument hx).1 (more _ hu)
        · exact hm.2
        · exact hf.not_upcoming t a
    intro hu
    by_cases hmid : m.Upcoming copied (Rename.composed (f.copyRenames (copied.count call.callee + 1) call) id)
    · rw [Function.comp, hg.upcoming _ hmid] at hu
      exact past hu
    · exact hg.past _ hmid (more _ hu)

/-- What a renaming makes of a copy of a body: a parameter ends as a name of main that is not
    to come, and all else as the name that the copy gives it. -/
def Function.Fills (f : Function) (m : Module) (copied : List Text) (name : Text) (h : Text → Text) : Prop :=
  ∀ k ∈ f.lines, ∀ id ∈ k.ids,
    (id ∈ f.parameterIds ∧ ¬ m.Upcoming copied (h (f.nameIn (copied.count name + 1) id))) ∨
      (id ∉ f.parameterIds ∧
        h (f.nameIn (copied.count name + 1) id) = f.nameIn (copied.count name + 1) id)

/-- The renames of the calls so far and those of the whole pass do so. -/
theorem Settles.fills [KeyOrder] (t : m.Tidy) (a : m.Apart) {g : Text → Text} (hg : Settles m copied g)
    (c : CallsFirst p m copied l ls call f) (hrest : Expands p m (call.callee :: copied) ls copied' e) :
    f.Fills m copied call.callee
      ((g ∘ Rename.composed (f.copyRenames (copied.count call.callee + 1) call)) ∘ Rename.composed e.renames) := by
  intro k hk id hid
  rw [Function.comp, c.composed_later t a hrest hk hid, Function.comp]
  by_cases hq : id ∈ f.parameterIds
  · exact Or.inl ⟨hq, hg.past _ (c.argument (c.composed_parameter t hq)).1⟩
  · refine Or.inr ⟨hq, ?_⟩
    rw [c.composed_other t a hk hid hq]
    rcases c.made_or_foreign t hk hid with hm | ⟨hu, he⟩
    · exact hg.upcoming _ hm.1
    · rw [he]
      exact hg.foreign _ hu

theorem Function.Fills.readyUnder [KeyOrder] (t : m.Tidy) (a : m.Apart) (hf : f ∈ m.plainFunctions) {name : Text}
    (hn : f.name = .ok name) {h : Text → Text} (hh : f.Fills m copied name h) (ready : ArgumentsReady f.lines) :
    ReadyUnder h (f.copyLines (copied.count name + 1)) := by
  rw [t.copyLines hf]
  have spaced : ∀ k ∈ f.lines, k.WellSpaced := t.spaced_plain hf
  refine readyUnder_map (fun k hk => spaced k (Function.bodyLines_subset hk))
    (fun k hk => Function.plain_nameIn (spaced k (Function.bodyLines_subset hk)) _) ?_
  refine readyUnder_of_injective (readyUnder_sublist ready Function.bodyLines_sublist) ?_
  intro k hk x hx later hlater r hr heq
  have hk := Function.bodyLines_subset hk
  have hd := (Line.result?_eq_some hr).2
  have ho := Function.mem_owned_of_body hlater hd
  have hrid := (spaced later (Function.bodyLines_subset hlater)).mem_ids_of_defined hd
  have hrmade := Module.made_nameIn t copied hf hn ho
  have hrq : r ∉ f.parameterIds := fun hq => Module.not_parameterName t hf hlater hd (Nat.succ_pos 0)
    ⟨f, hf, r, hq, 1, Nat.one_pos, rfl⟩
  have hrsame := ((hh later (Function.bodyLines_subset hlater) r hrid).resolve_left fun h => hrq h.1).2
  -- A parameter ends as no name to come, and the result of a call in the copy is one.
  rw [Function.comp, Function.comp, hrsame] at heq
  have hxid := Line.arguments_subset (spaced k hk) hx
  rcases hh k hk x hxid with ⟨-, hy⟩ | ⟨-, hsame⟩
  · exact absurd (heq ▸ hrmade.1) hy
  · rw [hsame] at heq
    by_cases hxo : x ∈ f.owned
    · exact (t.nameIn_injective hf hf hxo ho (Nat.succ_pos _) (Nat.succ_pos _) heq).2.2
    · rw [Function.nameIn_of_not_mem hxo] at heq
      exact absurd (heq ▸ hrmade.1) (Module.Foreign.not_upcoming t a ⟨f, hf, hxo, k, hk, hxid⟩)

/-- The calls of a copy do not take what later copies make. -/
theorem Function.Fills.not_argument [KeyOrder] (t : m.Tidy) (a : m.Apart) (hf : f ∈ m.plainFunctions) {name : Text}
    (hn : f.name = .ok name) {h : Text → Text} (hh : f.Fills m copied name h) {k : Line}
    (hk : k ∈ f.copyLines (copied.count name + 1)) {r : Text} (hr : m.Made (name :: copied) copied' r) (hsame : h r = r) :
    h r ∉ k.arguments.map h := by
  intro hmem
  obtain ⟨j, hj, spaced, named, rfl⟩ := t.of_mem_copyLines hf hk
  have hj := Function.bodyLines_subset hj
  rw [Line.arguments_renameIds spaced named, List.map_map] at hmem
  obtain ⟨x, hx, heq⟩ := List.mem_map.mp hmem
  have hxid := Line.arguments_subset spaced hx
  rw [hsame, Function.comp] at heq
  rcases hh j hj x hxid with ⟨-, hy⟩ | ⟨-, hkept⟩
  · exact hy (heq ▸ hr.of_rest.1)
  · rw [hkept] at heq
    rcases Module.made_or_foreign t copied hf hn hj hxid with hm | ⟨hu, he⟩
    · exact hm.2 (heq ▸ hr.1)
    · exact hu.not_upcoming t a (he.symm.trans heq ▸ hr.1)

/-- No call of an expansion takes its own result or a later one once all renames are made. -/
theorem Expands.readyUnder [KeyOrder] (t : m.Tidy) (a : m.Apart) (ready : ∀ f ∈ m.plainFunctions, ArgumentsReady f.lines)
    (hy : Hygienic m copied ls) (h : Expands p m copied ls copied' e) : ∀ {g : Text → Text}, Settles m copied g →
    ReadyUnder (g ∘ Rename.composed e.renames) e.lines := by
  induction h with
  | nil copied => exact fun _ => ⟨fun l hl => (by cases hl), .nil⟩
  | @keep l ls copied copied' e hcall hrest ih =>
    intro g hg
    have rest := ih hy.tail hg
    have noArguments : l.arguments = [] := if_neg (by simp [hcall])
    refine ⟨fun k hk r hr => ?_, List.pairwise_cons.mpr ⟨fun k hk r hr => ?_, rest.2⟩⟩
    · rcases List.mem_cons.mp hk with rfl | hk
      · rw [Line.result?_of_not_call hcall] at hr
        cases hr
      · exact rest.1 k hk r hr
    · rw [noArguments]
      exact List.not_mem_nil
  | @copy l ls copied copied' e call f hcall hline hres hcopy hrest ih =>
    intro g hg
    have c := CallsFirst.mk hy hcall hline hres hcopy
    have settles := hg.copy t a c
    have split : (g ∘ Rename.composed (f.copyRenames (copied.count call.callee + 1) call ++ e.renames)) =
        (g ∘ Rename.composed (f.copyRenames (copied.count call.callee + 1) call)) ∘ Rename.composed e.renames :=
      funext fun id => congrArg g (Rename.composed_append ..)
    rw [split]
    have fills := hg.fills t a c hrest
    refine readyUnder_append.mpr ⟨fills.readyUnder t a c.plain c.named (ready f c.plain), ih c.tail settles, ?_⟩
    intro k hk later hlater r hr
    obtain ⟨hcall', hd⟩ := Line.result?_eq_some hr
    obtain ⟨-, -, -, -, -, -, hmade⟩ := hrest.call_mem t hlater hcall'
    have hr := hmade r hd
    have same : Rename.composed e.renames r = r :=
      hrest.composed_defined t c.tail.toSound (List.mem_filterMap.mpr ⟨later, hlater, hd⟩)
    exact fills.not_argument t a c.plain c.named hk hr ((congrArg _ same).trans (settles.upcoming r hr.1))

/-! ## A pass keeps main hygienic -/

theorem Hygienic.pass [KeyOrder] (t : m.Tidy) (a : m.Apart) (ready : ∀ f ∈ m.plainFunctions, ArgumentsReady f.lines)
    (hy : Hygienic m copied ls) (h : Expands p m copied ls copied' e) : Hygienic m copied' e.renamed := by
  have sound := hy.toSound.pass t h
  refine ⟨sound, ?_, fun l hl id hid hu => ?_, fun l hl id hid hq => ?_, fun l hl r hr hf => ?_⟩
  · exact readyUnder_map (h.spaced t hy.spaced) (fun l hl => h.plain_composed t hy.spaced hl)
      (h.readyUnder t a ready hy ⟨fun _ _ => rfl, fun _ _ => rfl, fun _ hu => hu⟩)
  · obtain ⟨-, ⟨k, hk, hid⟩ | ⟨hm, -⟩ | hf⟩ := h.renamed_ids t a hy hl hid
    · exact hy.unborn k hk id hid (hu.anti h.count_le)
    · exact hm.2 hu
    · exact hf.not_upcoming t a hu
  · obtain ⟨-, ⟨k, hk, hid⟩ | ⟨-, hne⟩ | hf⟩ := h.renamed_ids t a hy hl hid
    · exact hy.noParameter k hk id hid hq
    · exact hne hq
    · exact hf.not_parameterName t a hq
  · obtain ⟨k, hk, rfl⟩ := List.mem_map.mp hl
    have spaced := h.spaced t hy.spaced k hk
    rw [Line.result?_renameIds spaced (h.plain_composed t hy.spaced hk)] at hr
    obtain ⟨r', hr', rfl⟩ := Option.map_eq_some_iff.mp hr
    obtain ⟨hcall, hd⟩ := Line.result?_eq_some hr'
    rw [h.composed_defined t hy.toSound (List.mem_filterMap.mpr ⟨k, hk, hd⟩)] at hf
    obtain ⟨-, -, -, -, -, -, hmade⟩ := h.call_mem t hk hcall
    exact hf.not_upcoming t a (hmade r' hd).1

/-- Main is hygienic before the first pass. -/
theorem Hygienic.start (t : m.Tidy) (a : m.Apart) {main : Function} (hmain : m.main? = some main)
    (declared : ∃ name, main.name = .ok name) (ready : ArgumentsReady main.lines) : Hygienic m [] main.lines := by
  have block := Module.main_mem hmain
  have own : ∀ l ∈ main.lines, ∀ id ∈ l.ids,
      ¬ ((∃ f ∈ m.plainFunctions, id ∈ f.owned) ∨ Inlining.isCopyName id = true) := by
    intro l hl id hid h
    cases (a.owned_of_mem_ids t block rfl hl hid h).1
  refine ⟨Sound.start t hmain, ready, fun l hl id hid hu => own l hl id hid hu.owned_or,
    fun l hl id hid hq => own l hl id hid hq.owned_or, fun l hl r hr hf => ?_⟩
  obtain ⟨hcall, hd⟩ := Line.result?_eq_some hr
  obtain ⟨name, hname⟩ := declared
  have hlocal : r ∈ (⟨.main, main.lines⟩ : Block).localIds :=
    List.mem_filterMap.mpr ⟨l, Function.mem_tail_of_isCall hname hl hcall, hd⟩
  obtain ⟨f, hf, -, k, hk, hid⟩ := hf
  exact a.not_mem_ids t block (Module.mem_plainFunctions.mp hf) rfl (by simp) hlocal hk hid

end Pass

end SpirvLink
