/-
  SpirvLink.Proofs.Meaning.Renaming — renamed lines do what the lines do.

  Where every identifier has, under its new name, the value that it had (`Env.Carried`), a
  renamed line adds the same to the trace and gives the same value (`step_renamed`). A list
  of lines goes on to do so if it defines new names that have no value yet and that differ
  from one another (`exec_renamed`); the renaming itself may send two identifiers to one.
-/

import SpirvLink.Proofs.Inlining.Unfolding
import SpirvLink.Proofs.Meaning.StraightLine

namespace SpirvLink.Semantics

/-! ## Steps on every element -/

section Steps

variable {α β γ : Type} {f : α → Option γ} {g : β → Option γ} {h : α → β}

theorem mapM_cons_eq_some {x : α} {xs : List α} {zs : List γ} :
    (x :: xs).mapM f = some zs ↔ ∃ y ys, f x = some y ∧ xs.mapM f = some ys ∧ zs = y :: ys := by
  rw [List.mapM_cons]
  simp only [Option.bind_eq_bind, Option.bind_eq_some_iff, Option.pure_def, Option.some.injEq]
  constructor
  · rintro ⟨y, hy, ys, hys, rfl⟩
    exact ⟨y, ys, hy, hys, rfl⟩
  · rintro ⟨y, ys, hy, hys, rfl⟩
    exact ⟨y, hy, ys, hys, rfl⟩

theorem mapM_map_eq_some : ∀ {xs : List α} {ys : List γ}, (∀ x ∈ xs, ∀ y, f x = some y → g (h x) = some y) →
    xs.mapM f = some ys → (xs.map h).mapM g = some ys
  | [], _, _, hs => hs
  | _ :: _, _, hfg, hs => by
    obtain ⟨y, ys, hy, hys, rfl⟩ := mapM_cons_eq_some.mp hs
    exact mapM_cons_eq_some.mpr ⟨y, ys, hfg _ (List.mem_cons_self ..) y hy,
      mapM_map_eq_some (fun z hz => hfg z (List.mem_cons_of_mem _ hz)) hys, rfl⟩

end Steps

variable {V : Type} {I : Interpretation V} {m m' : Module} {run run' : Callees V} {g : Text → Text}
  {used : Text → Prop} {E F : Env V} {T : List (Entry V)} {l : Line} {ls : List Line} {s : State V}

/-! ## Values under new names -/

/-- Each identifier that is used has, under its new name, the value that it had. -/
def Env.Carried (g : Text → Text) (used : Text → Prop) (F E : Env V) : Prop :=
  ∀ id v, used id → F id = some v → E (g id) = some v

namespace Env

theorem setResult_of_ne {d : Option Text} {r : Option V} {id : Text} (h : d ≠ some id) :
    E.setResult d r id = E id := by
  cases d with
  | none => rfl
  | some d =>
    cases r with
    | none => rfl
    | some v => exact if_neg fun he : id = d => h (congrArg some he.symm)

@[simp] theorem setResult_self {id : Text} {v : V} : E.setResult (some id) (some v) id = some v :=
  if_pos rfl

/-- A new name without a value takes a value without a loss. -/
theorem Carried.setResult (h : Carried g used F E) {d : Option Text} (fresh : ∀ id ∈ d, E (g id) = none) (r : Option V) :
    Carried g used (F.setResult d r) (E.setResult (d.map g) r) := by
  cases d with
  | none => exact h
  | some d =>
    cases r with
    | none => exact h
    | some w =>
      intro id v hu hv
      by_cases he : id = d
      · subst he
        rw [setResult_self] at hv
        rw [← hv]
        exact setResult_self
      · rw [setResult_of_ne fun h => he (Option.some.inj h).symm] at hv
        have old := h id v hu hv
        rw [Option.map_some, setResult_of_ne, old]
        intro hd
        rw [← Option.some.inj hd, fresh d rfl] at old
        cases old

end Env

/-! ## One line -/

/-- The function that a call runs is also run by the renamed call. -/
def Answered (m m' : Module) (run run' : Callees V) (g : Text → Text) (l : Line) : Prop :=
  ∀ call f vs T out, l.isCall = true → Call.ofLine l = .ok call → callee? m call.callee = some f →
    run f vs T = some out → callee? m' (g call.callee) = some f ∧ run' f vs T = some out

theorem operand_renamed (ha : l.Atomic) (hl : l.WellSpaced) (hg : ∀ id ∈ l.ids, Text.IsPlainIdent (g id))
    (hE : ∀ id ∈ l.ids, ∀ v, F id = some v → E (g id) = some v) :
    ∀ t ∈ l.operands, ∀ o, F.operand t = some o → E.operand (Text.renameIds g t) = some o := by
  intro t ht o ho
  rcases ha t ht with hp | hs
  · have hid : t ∈ l.ids := by
      rw [hl.ids_eq]
      exact List.mem_append_right _ (Line.mem_operandIds_of_plain hl ht hp)
    rw [Line.renameIds_of_plain hp]
    rw [Env.operand, if_pos hp.1.1] at ho
    obtain ⟨v, hv, rfl⟩ := Option.map_eq_some_iff.mp ho
    rw [Env.operand, if_pos (hg t hid).1.1, hE t hid v hv]
    rfl
  · have head : t.head? ≠ some Text.sigil := fun h => hs (List.mem_of_mem_head? h)
    rw [Text.renameIds_of_no_sigil g hs]
    rw [Env.operand, if_neg head] at ho ⊢
    exact ho

/-- A renamed line adds the same to the trace and gives the same value. -/
theorem step_renamed (ha : l.Atomic) (hl : l.WellSpaced) (hg : ∀ id ∈ l.ids, Text.IsPlainIdent (g id))
    (hcalls : Answered m m' run run' g l) (hE : ∀ id ∈ l.ids, ∀ v, F id = some v → E (g id) = some v)
    (hs : step I m run l ⟨F, T⟩ = some s) : ∃ r T', s = ⟨F.setResult l.defined? r, T'⟩ ∧
      step I m' run' (l.renameIds g) ⟨E, T⟩ = some ⟨E.setResult (l.defined?.map g) r, T'⟩ := by
  cases hcall : l.isCall with
  | true =>
    obtain ⟨call, f, vs, out, hline, hf, hvs, hout, rfl⟩ := (step_call_eq_some hcall).mp hs
    obtain ⟨hd, hr⟩ := Call.ofLine_eq_ok.mp hline
    obtain ⟨hf', hout'⟩ := hcalls call f vs T out hcall hline hf hout
    have args : ∀ x ∈ call.arguments, x ∈ l.ids := by
      intro x hx
      refine hl.mem_ids_of_rhs ?_
      rw [hr]
      exact List.mem_cons_of_mem _ (List.mem_cons_of_mem _ hx)
    refine ⟨out.returned, out.trace, by rw [hd], ?_⟩
    rw [hd]
    exact (step_call_eq_some (by rwa [hl.isCall_renameIds hg])).mpr ⟨_, f, vs, out, call_renameIds hl hg hline, hf',
      mapM_map_eq_some (fun x hx => hE x (args x hx)) hvs, hout', rfl⟩
  | false =>
    obtain ⟨os, hos, rfl⟩ := (step_instruction_eq_some hcall).mp hs
    refine ⟨some (I ⟨l.opcode?.getD [], os⟩ T), T ++ [⟨l.opcode?.getD [], os⟩], rfl,
      (step_instruction_eq_some (by rwa [hl.isCall_renameIds hg])).mpr ⟨os, ?_, ?_⟩⟩
    · rw [hl.operands_renameIds hg]
      exact mapM_map_eq_some (operand_renamed ha hl hg hE) hos
    · rw [hl.opcode?_renameIds hg, hl.defined?_renameIds hg]

/-! ## Many lines -/

/-- Renamed lines do what the lines do, and change no other value. -/
theorem exec_renamed (ha : ∀ l ∈ ls, l.Atomic) (hls : ∀ l ∈ ls, l.WellSpaced)
    (hg : ∀ l ∈ ls, ∀ id ∈ l.ids, Text.IsPlainIdent (g id)) (hu : ∀ l ∈ ls, ∀ id ∈ l.ids, used id)
    (hcalls : ∀ l ∈ ls, Answered m m' run run' g l) (once : ((ls.filterMap Line.defined?).map g).Nodup)
    (fresh : ∀ d ∈ ls.filterMap Line.defined?, E (g d) = none) (hE : Env.Carried g used F E)
    (hs : exec I m run ls ⟨F, T⟩ = some s) : ∃ E', exec I m' run' (ls.map (Line.renameIds g)) ⟨E, T⟩ = some ⟨E', s.trace⟩ ∧
      Env.Carried g used s.env E' ∧ ∀ id, id ∉ (ls.filterMap Line.defined?).map g → E' id = E id := by
  induction ls generalizing F E T with
  | nil =>
    cases hs
    exact ⟨E, rfl, hE, fun _ _ => rfl⟩
  | cons l ls ih =>
    rw [List.forall_mem_cons] at ha hls hg hu hcalls
    obtain ⟨s₁, hl, hrest⟩ := Option.bind_eq_some_iff.mp hs
    obtain ⟨r, T', rfl, hl'⟩ := step_renamed ha.1 hls.1 hg.1 hcalls.1 (fun id hid v => hE id v (hu.1 id hid)) hl
    have here : ∀ d ∈ l.defined?, d ∈ (l :: ls).filterMap Line.defined? := fun d hd =>
      List.mem_filterMap.mpr ⟨l, List.mem_cons_self .., hd⟩
    have later : ls.filterMap Line.defined? ⊆ (l :: ls).filterMap Line.defined? :=
      ((List.sublist_cons_self l ls).filterMap _).subset
    have other : ∀ d ∈ ls.filterMap Line.defined?, l.defined?.map g ≠ some (g d) := by
      intro d hd heq
      obtain ⟨d', hd', heq⟩ := Option.map_eq_some_iff.mp heq
      rw [List.filterMap_cons_some hd', List.map_cons, List.nodup_cons] at once
      exact once.1 (heq ▸ List.mem_map_of_mem hd)
    obtain ⟨E', hexec, hcarried, hsame⟩ := ih ha.2 hls.2 hg.2 hu.2 hcalls.2
      (once.sublist (((List.sublist_cons_self l ls).filterMap _).map g))
      (fun d hd => by rw [Env.setResult_of_ne (other d hd), fresh d (later hd)])
      (hE.setResult (fun d hd => fresh d (here d hd)) r) hrest
    refine ⟨E', Option.bind_eq_some_iff.mpr ⟨_, hl', hexec⟩, hcarried, fun id hid => ?_⟩
    have gone : l.defined?.map g ≠ some id := by
      intro hgone
      obtain ⟨d, hd, rfl⟩ := Option.map_eq_some_iff.mp hgone
      exact hid (List.mem_map_of_mem (here d hd))
    rw [hsame id fun hmem => hid (List.map_subset g later hmem), Env.setResult_of_ne gone]

end SpirvLink.Semantics
