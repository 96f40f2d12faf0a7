/-
  SpirvLink.Proofs.Inlining.Placement — where the copy of a body goes.

  The expansion of two runs of lines is the one of the first, then the one of the second
  after the copies of the first (`Expands.append_inv`). So a pass over main leaves, in the
  place of each call, a copy of the body of the function called, between what becomes of the
  lines before and after it, and it tells of that copy (`pass_places`).
-/

import SpirvLink.Proofs.Inlining.Run

namespace SpirvLink

variable {p : Text} {m : Module} {copied copied' mid : List Text} {before ls ls' after : List Line} {l : Line}
  {e e₁ e₂ : Expansion} {call : Call} {f : Function}

/-! ## Expansions of appended lines -/

/-- What is told of the later lines is told after the first ones are expanded. -/
theorem Expands.mem_log_append [KeyOrder] (h : Expands p m copied ls mid e₁) {ev : Event}
    (hev : ev ∈ (Inliner.expandLines p m mid ls').log) : ev ∈ (Inliner.expandLines p m copied (ls ++ ls')).log := by
  induction h with
  | nil copied => exact hev
  | keep hk _ ih =>
    rw [List.cons_append, Inliner.expandLines, if_neg (by simp [hk])]
    exact Logged.mem_log_bind_left (ih hev)
  | copy hk hline hres hcopy _ ih =>
    obtain ⟨-, hname⟩ := Module.plain_of_resolve hres
    rw [List.cons_append, Inliner.expandLines, if_pos hk]
    refine Logged.mem_log_bind_right hline (Logged.mem_log_bind_right hres (Logged.mem_log_bind_right rfl
      (Logged.mem_log_bind_right (Function.copyBody_eq_ok.mpr ⟨⟨_, hname⟩, hcopy, rfl⟩)
        (Logged.mem_log_bind_left (ih hev)))))

/-- The copy for a call is told of. -/
theorem mem_log_copying [KeyOrder] (hl : l.isCall = true) (hline : Call.ofLine l = .ok call)
    (hres : Inlining.resolve m call.callee = .ok f) :
    .copying l call.callee (copied.count call.callee + 1) ∈ (Inliner.expandLines p m copied (l :: ls)).log := by
  rw [Inliner.expandLines, if_pos hl]
  exact Logged.mem_log_bind_right hline (Logged.mem_log_bind_right hres
    (Logged.mem_log_bind_left (List.mem_singleton.mpr rfl)))

/-! ## A pass -/

theorem Rename.applyAll_append (rs : List Rename) (ls ls' : List Line) :
    Rename.applyAll rs (ls ++ ls') = Rename.applyAll rs ls ++ Rename.applyAll rs ls' := by
  induction rs with
  | nil => rfl
  | cons r rs ih =>
    show (Rename.applyAll rs (ls ++ ls')).map _ = _
    rw [ih, List.map_append]
    rfl

/-- What a pass makes of main around a call: the body of the function called stands in the
    place of the call, copied under the number `copy`, between what stands for the lines
    before and after it, and the same renames are made on all of them. -/
structure Placed [KeyOrder] (p : Text) (m : Module) (before : List Line) (call : Call) (after : List Line) (f : Function)
    (copy : Nat) (lines : List Line) : Prop where
  callee : Inlining.resolve m call.callee = .ok f
  around : ∃ mid e₁ copied' e₂ renames, Expands p m [] before mid e₁ ∧
    Expands p m (call.callee :: mid) after copied' e₂ ∧ copy = mid.count call.callee + 1 ∧
    renames = Rename.effective (e₁.renames ++ (f.copyRenames copy call ++ e₂.renames)) ∧
    lines = (Rename.applyAll renames e₁.lines).map Line.trim ++
      (Rename.applyAll renames (f.copyLines copy)).map Line.trim ++ (Rename.applyAll renames e₂.lines).map Line.trim

/-- A pass that succeeds replaces the call on a line by a copy of the body of its callee. -/
theorem pass_places [KeyOrder] {lines : List Line} (h : ((Inliner.ofPrefix p).pass m ⟨before ++ l :: after⟩).result = .ok lines)
    (hl : l.isCall = true) : ∃ call f copy, Call.ofLine l = .ok call ∧ Placed p m before call after f copy lines ∧
      .copying l call.callee copy ∈ ((Inliner.ofPrefix p).pass m ⟨before ++ l :: after⟩).log := by
  obtain ⟨copied', e, he, rfl⟩ := exists_expands_of_pass h
  obtain ⟨mid, e₁, e₂, h₁, h₂, rfl⟩ := he.append_inv
  cases h₂ with
  | keep hk => cases hl.symm.trans hk
  | @copy _ _ _ _ e₂ call f _ hline hres hcopy hrest =>
    refine ⟨call, f, _, hline, ⟨hres, mid, e₁, copied', e₂, _, h₁, hrest, rfl, rfl, ?_⟩, ?_⟩
    · simp only [Expansion.told, Rename.applyAll_append, List.map_append, List.append_assoc]
    · rw [pass_log]
      exact h₁.mem_log_append (mem_log_copying hl hline hres)

end SpirvLink
