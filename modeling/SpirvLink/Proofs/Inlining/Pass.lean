/-
  SpirvLink.Proofs.Inlining.Pass — what one pass keeps.

  Between passes main is `Sound`: its lines are well spaced, no identifier is defined by
  two of them, and none is defined by the name of a copy still to be made. A pass keeps
  this (`Sound.pass`), since no rename touches what the expansion defines
  (`composed_defined`). The log of a pass tells the copies made and nothing of other passes
  (`Expands.count_log`, `expandLines_log`).
-/

import SpirvLink.Proofs.Inlining.Expansion

namespace SpirvLink

/-- What main is like between passes, given the copies made so far. -/
structure Sound (m : Module) (copied : List Text) (ls : List Line) : Prop where
  spaced : ∀ l ∈ ls, l.WellSpaced
  once : (ls.filterMap Line.defined?).Nodup
  past : ∀ id ∈ ls.filterMap Line.defined?, ¬ m.Upcoming copied id

/-- The lines of an expansion with its renames made. -/
def Expansion.renamed (e : Expansion) : List Line :=
  e.lines.map (Line.renameIds (Rename.composed e.renames))

variable {p : Text} {m : Module} {copied copied' : List Text} {ls : List Line} {e : Expansion} {id : Text}

/-! ## Sound lines -/

namespace Sound

variable {l : Line}

theorem tail (s : Sound m copied (l :: ls)) : Sound m copied ls := by
  have sub : (ls.filterMap Line.defined?).Sublist ((l :: ls).filterMap Line.defined?) :=
    (List.sublist_cons_self l ls).filterMap _
  exact ⟨fun k hk => s.spaced k (List.mem_cons_of_mem l hk), s.once.sublist sub,
    fun id hid => s.past id (sub.subset hid)⟩

/-- More copies made leave fewer names to come. -/
theorem mono (s : Sound m copied ls) (hle : ∀ name, copied.count name ≤ copied'.count name) :
    Sound m copied' ls :=
  ⟨s.spaced, s.once, fun id hid hu => s.past id hid (hu.anti hle)⟩

theorem line_eq (s : Sound m copied ls) {k : Line} (hl : l ∈ ls) (hk : k ∈ ls) (hld : l.defined? = some id)
    (hkd : k.defined? = some id) : l = k := by
  have once := s.once
  clear s
  induction ls with
  | nil => cases hl
  | cons j ls ih =>
    have other : ∀ k ∈ ls, k.defined? = some id → j.defined? = some id → False := by
      intro k hk hkd hj
      rw [List.filterMap_cons_some hj, List.nodup_cons] at once
      exact once.1 (List.mem_filterMap.mpr ⟨k, hk, hkd⟩)
    have tail := once.sublist ((List.sublist_cons_self j ls).filterMap _)
    rcases List.mem_cons.mp hl with hl | hl <;> rcases List.mem_cons.mp hk with hk | hk
    · exact hl.trans hk.symm
    · exact absurd (hl ▸ hld) (other k hk hkd)
    · exact absurd (hk ▸ hkd) (other l hl hld)
    · exact ih hl hk tail

end Sound

/-- Main is sound before the first pass. -/
theorem Sound.start (t : m.Tidy) {main : Function} (hmain : m.main? = some main) : Sound m [] main.lines := by
  have block := Module.main_mem hmain
  have lines : ∀ l ∈ main.lines, l ∈ m.lines := fun l hl => List.mem_flatMap.mpr ⟨_, block, hl⟩
  refine ⟨fun l hl => t.spaced l (lines l hl), t.once.block_nodup block, fun id hid hu => ?_⟩
  obtain ⟨l, hl, hd⟩ := List.mem_filterMap.mp hid
  rcases hu.owned_or with ⟨f, hf, ho⟩ | hs
  · cases t.block_of_owned hf ho block hid
  · have := t.unsuffixed l (lines l hl) id ((t.spaced l (lines l hl)).mem_ids_of_defined hd)
    rw [hs] at this
    cases this

/-! ## The renames of a pass -/

theorem Module.Upcoming.plain (t : m.Tidy) (h : m.Upcoming copied id) : Text.IsPlainIdent id := by
  obtain ⟨f, hf, -, -, d, hd, copy, -, rfl⟩ := h
  exact Function.isPlainIdent_nameIn (t.owned_plain hf hd) copy

theorem Module.Foreign.plain (t : m.Tidy) (h : m.Foreign id) : Text.IsPlainIdent id := by
  obtain ⟨f, hf, -, l, hl, hid⟩ := h
  exact (t.spaced_plain hf l hl).plain id hid

variable [KeyOrder]

namespace Expands

theorem plain_new (t : m.Tidy) (h : Expands p m copied ls copied' e) (hls : ∀ l ∈ ls, l.WellSpaced)
    {r : Rename} (hr : r ∈ e.renames) : Text.IsPlainIdent r.new := by
  rcases h.news t hr with ⟨l, hl, hid⟩ | hm | hf
  · exact (hls l hl).plain _ (Line.arguments_subset (hls l hl) hid)
  · exact hm.1.plain t
  · exact hf.plain t

theorem plain_composed (t : m.Tidy) (h : Expands p m copied ls copied' e) (hls : ∀ l ∈ ls, l.WellSpaced)
    {l : Line} (hl : l ∈ e.lines) : ∀ id ∈ l.ids, Text.IsPlainIdent (Rename.composed e.renames id) := by
  intro id hid
  rcases Rename.composed_eq_or_mem e.renames id with he | ⟨r, hr, he⟩
  · rw [he]
    exact (h.spaced t hls l hl).plain id hid
  · rw [he]
    exact h.plain_new t hls hr

theorem renamed_spaced (t : m.Tidy) (h : Expands p m copied ls copied' e) (hls : ∀ l ∈ ls, l.WellSpaced) :
    ∀ l ∈ e.renamed, l.WellSpaced := by
  intro l hl
  obtain ⟨k, hk, rfl⟩ := List.mem_map.mp hl
  exact (h.spaced t hls k hk).renameIds (h.plain_composed t hls hk)

end Expands

/-- A pass succeeds when the lines of main expand, and gives the expansion with the renames
    made. -/
theorem pass_eq_ok (t : m.Tidy) {i : Inliner} {main : Function} (hmain : ∀ l ∈ main.lines, l.WellSpaced) :
    (i.pass m main).result = .ok ls ↔
      ∃ copied' e, Expands i.kernelPrefix m i.copied main.lines copied' e ∧ ls = e.renamed := by
  have renamed : ∀ {copied' e}, Expands i.kernelPrefix m i.copied main.lines copied' e →
      (Rename.applyAll e.told.renames e.told.lines).map Line.trim = e.renamed := by
    intro copied' e h
    have plain : ∀ r ∈ e.told.renames, Text.IsIdent r.new := fun r hr =>
      (h.plain_new t hmain (List.mem_filter.mp hr).1).1
    rw [Rename.applyAll_eq_map plain]
    unfold Expansion.told
    rw [Rename.composed_effective]
    refine (List.map_congr_left fun l hl => ?_).trans (List.map_id _)
    exact (h.renamed_spaced t hmain l hl).trim
  constructor
  · intro h
    obtain ⟨copied', e, he, rfl⟩ := exists_expands_of_pass h
    exact ⟨copied', e, he, renamed he⟩
  · rintro ⟨copied', e, he, rfl⟩
    exact Logged.bind_result_eq_ok.mpr ⟨_, he.expandLines, congrArg Except.ok (renamed he)⟩

/-! ## A pass keeps main sound -/

namespace Expands

/-- No rename of a pass touches what a line of the expansion defines. -/
theorem composed_defined (t : m.Tidy) (s : Sound m copied ls) (h : Expands p m copied ls copied' e)
    (hid : id ∈ e.lines.filterMap Line.defined?) : Rename.composed e.renames id = id := by
  refine Rename.composed_of_not_mem fun hold => ?_
  obtain ⟨r, hr, rfl⟩ := List.mem_map.mp hold
  rcases h.olds t hr with ⟨k, hk, hkr⟩ | ⟨hm, hq⟩
  · obtain ⟨hcall, hkd⟩ := Line.result?_eq_some hkr
    have past := s.past _ (List.mem_filterMap.mpr ⟨k, hk, hkd⟩)
    rcases h.defines t hid with ⟨l, hl, hne, hld⟩ | ⟨hm, -⟩
    · rw [s.line_eq hl hk hld hkd, hcall] at hne
      cases hne
    · exact past hm.1
  · rcases h.defines t hid with ⟨l, hl, -, hld⟩ | ⟨-, hne⟩
    · exact s.past _ (List.mem_filterMap.mpr ⟨l, hl, hld⟩) hm.1
    · exact hne hq

theorem defined?_renamed (t : m.Tidy) (s : Sound m copied ls) (h : Expands p m copied ls copied' e) {l : Line}
    (hl : l ∈ e.lines) : (l.renameIds (Rename.composed e.renames)).defined? = l.defined? := by
  rw [(h.spaced t s.spaced l hl).defined?_renameIds (h.plain_composed t s.spaced hl)]
  cases hd : l.defined? with
  | none => rfl
  | some id => exact congrArg some (h.composed_defined t s (List.mem_filterMap.mpr ⟨l, hl, hd⟩))

theorem defined_renamed (t : m.Tidy) (s : Sound m copied ls) (h : Expands p m copied ls copied' e) :
    e.renamed.filterMap Line.defined? = e.lines.filterMap Line.defined? := by
  rw [Expansion.renamed, List.filterMap_map]
  exact List.filterMap_congr fun l hl => h.defined?_renamed t s hl

/-- No two lines of an expansion define one identifier: the copies bring in names of their own. -/
theorem once (t : m.Tidy) (s : Sound m copied ls) (h : Expands p m copied ls copied' e) :
    (e.lines.filterMap Line.defined?).Nodup := by
  induction h with
  | nil copied => exact List.nodup_nil
  | @keep l ls copied copied' e hcall hrest ih =>
    have rest := ih s.tail
    cases hd : l.defined? with
    | none => rwa [List.filterMap_cons_none hd]
    | some d =>
      rw [List.filterMap_cons_some hd, List.nodup_cons]
      refine ⟨fun hmem => ?_, rest⟩
      have once := s.once
      have past := s.past d (List.mem_filterMap.mpr ⟨l, List.mem_cons_self .., hd⟩)
      rw [List.filterMap_cons_some hd, List.nodup_cons] at once
      rcases hrest.defines t hmem with ⟨k, hk, -, hkd⟩ | ⟨hm, -⟩
      · exact once.1 (List.mem_filterMap.mpr ⟨k, hk, hkd⟩)
      · exact past hm.1
  | @copy l ls copied copied' e call f _ _ hres _ hrest ih =>
    obtain ⟨hf, hn⟩ := Module.plain_of_resolve hres
    have rest := ih (s.tail.mono fun _ => List.count_le_count_cons ..)
    rw [List.filterMap_append, t.defined_copyLines hf]
    refine List.nodup_append.mpr ⟨?_, rest, ?_⟩
    · have owned := t.owned_nodup hf
      rw [Function.owned, List.nodup_append] at owned
      refine List.Nodup.map_on (fun d hd d' hd' heq => ?_) owned.2.1
      exact (t.nameIn_injective hf hf (List.mem_append_right _ hd) (List.mem_append_right _ hd')
        (Nat.succ_pos _) (Nat.succ_pos _) heq).2.2
    · rintro a ha b hb rfl
      obtain ⟨d, hd, rfl⟩ := List.mem_map.mp ha
      have made := Module.made_nameIn t copied hf hn (List.mem_append_right _ hd)
      rcases hrest.defines t hb with ⟨k, hk, -, hkd⟩ | ⟨hm, -⟩
      · exact s.past _ (List.mem_filterMap.mpr ⟨k, List.mem_cons_of_mem l hk, hkd⟩) made.1
      · exact made.2 hm.1

end Expands

theorem Sound.pass (t : m.Tidy) (s : Sound m copied ls) (h : Expands p m copied ls copied' e) :
    Sound m copied' e.renamed := by
  refine ⟨h.renamed_spaced t s.spaced, ?_, fun id hid => ?_⟩
  · rw [h.defined_renamed t s]
    exact h.once t s
  · rw [h.defined_renamed t s] at hid
    rcases h.defines t hid with ⟨l, hl, -, hld⟩ | ⟨hm, -⟩
    · exact fun hu => s.past id (List.mem_filterMap.mpr ⟨l, hl, hld⟩) (hu.anti h.count_le)
    · exact hm.2

/-! ## The log of a pass -/

/-- The number of a pass that is done. -/
def Event.passDone? : Event → Option Nat
  | .passDone pass => some pass
  | _ => none

theorem copyBody_log {f : Function} {call : Call} {copy : Nat} :
    ∀ ev ∈ (Inlining.copyBody p f call copy).log, ev.copied? = none ∧ ev.passDone? = none := by
  have renamed : ∀ rs : List Rename, ∀ ev ∈ rs.map Rename.event, ev.copied? = none ∧ ev.passDone? = none := by
    intro rs ev hev
    obtain ⟨r, -, rfl⟩ := List.mem_map.mp hev
    exact ⟨rfl, rfl⟩
  intro ev h
  unfold Inlining.copyBody at h
  rcases Logged.mem_log_bind h with h | ⟨name, -, h⟩
  · cases h
  rcases Logged.mem_log_bind h with h | ⟨parameters, -, h⟩
  · cases h
  by_cases harity : parameters.length ≠ call.arguments.length
  · rw [if_pos harity] at h
    rcases Logged.mem_log_bind h with h | ⟨_, hfail, -⟩
    · cases h
    · cases hfail
  rw [if_neg harity] at h
  rcases Logged.mem_log_bind h with h | ⟨body, -, h⟩
  · cases h
  rcases Logged.mem_log_bind h with h | ⟨_, -, h⟩
  · exact renamed _ ev h
  rcases Logged.mem_log_bind h with h | ⟨returned, -, h⟩
  · cases h
  rcases Logged.mem_log_bind h with h | ⟨_, -, h⟩
  · exact renamed _ ev h
  · cases h

theorem expandLines_log : ∀ {ls : List Line} {copied : List Text},
    ∀ ev ∈ (Inliner.expandLines p m copied ls).log, ev.passDone? = none ∧
      ∀ l callee copy, ev = .copying l callee copy → l ∈ ls ∧
        ∃ call f, l.isCall = true ∧ Call.ofLine l = .ok call ∧ call.callee = callee ∧
          Inlining.resolve m callee = .ok f
  | [], _, ev, h => by cases h
  | l :: ls, copied, ev, h => by
    rw [Inliner.expandLines] at h
    by_cases hcall : l.isCall = true
    · rw [if_pos hcall] at h
      rcases Logged.mem_log_bind h with h | ⟨call, hline, h⟩
      · cases h
      rcases Logged.mem_log_bind h with h | ⟨f, hres, h⟩
      · cases h
      rcases Logged.mem_log_bind h with h | ⟨_, -, h⟩
      · cases List.mem_singleton.mp h
        refine ⟨rfl, fun l' callee copy heq => ?_⟩
        cases heq
        exact ⟨List.mem_cons_self .., call, f, hcall, hline, rfl, hres⟩
      rcases Logged.mem_log_bind h with h | ⟨here, -, h⟩
      · obtain ⟨hc, hp⟩ := copyBody_log ev h
        refine ⟨hp, fun l' callee copy heq => ?_⟩
        rw [heq] at hc
        cases hc
      rcases Logged.mem_log_bind h with h | ⟨rest, -, h⟩
      · obtain ⟨hp, hc⟩ := expandLines_log ev h
        exact ⟨hp, fun l' callee copy heq => (hc l' callee copy heq).imp_left (List.mem_cons_of_mem l)⟩
      · cases h
    · rw [if_neg hcall] at h
      rcases Logged.mem_log_bind h with h | ⟨rest, -, h⟩
      · obtain ⟨hp, hc⟩ := expandLines_log ev h
        exact ⟨hp, fun l' callee copy heq => (hc l' callee copy heq).imp_left (List.mem_cons_of_mem l)⟩
      · cases h

/-- The log of a pass tells as many copies of each function as were made. -/
theorem Expands.count_log (h : Expands p m copied ls copied' e) (name : Text) :
    ((Inliner.expandLines p m copied ls).log.filterMap Event.copied? ++ copied).count name =
      copied'.count name := by
  induction h with
  | nil copied => rfl
  | @keep l ls copied copied' e hcall hrest ih =>
    have log : (Inliner.expandLines p m copied (l :: ls)).log = (Inliner.expandLines p m copied ls).log := by
      rw [Inliner.expandLines, if_neg (by simp [hcall]), Logged.log_bind hrest.expandLines]
      exact List.append_nil _
    rw [log]
    exact ih
  | @copy l ls copied copied' e call f hcall hline hres hcopy hrest ih =>
    have body := Function.copyBody_eq_ok.mpr ⟨⟨_, (Module.plain_of_resolve hres).2⟩, hcopy,
      (rfl : _ = Expansion.mk _ (Rename.effective (f.copyRenames (copied.count call.callee + 1) call)))⟩
    have log : (Inliner.expandLines p m copied (l :: ls)).log =
        .copying l call.callee (copied.count call.callee + 1) ::
          ((Inlining.copyBody p f call (copied.count call.callee + 1)).log ++
            (Inliner.expandLines p m (call.callee :: copied) ls).log) := by
      rw [Inliner.expandLines, if_pos hcall, Logged.log_bind hline, Logged.log_bind hres,
        Logged.log_bind (Logged.result_tell _), Logged.log_bind body, Logged.log_bind hrest.expandLines,
        Logged.log_pure, List.append_nil]
      rfl
    have silent : (Inlining.copyBody p f call (copied.count call.callee + 1)).log.filterMap Event.copied? = [] :=
      List.filterMap_eq_nil_iff.mpr fun ev hev => (copyBody_log ev hev).1
    rw [← ih, log, List.filterMap_cons_some (show Event.copied? _ = some _ from rfl), List.filterMap_append, silent]
    simp only [List.nil_append, List.cons_append, List.count_append, List.count_cons]
    omega

end SpirvLink
