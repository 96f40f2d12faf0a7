/-
  SpirvLink.Proofs.Success — when a chain of steps that can fail succeeds.

  A bind succeeds when both of its steps do, and a step taken on every element of a list
  succeeds when it does on each one.
-/

import Mathlib.Data.List.Forall2
import SpirvLink.Log

namespace SpirvLink

theorem bind_eq_ok {ε α β : Type} {x : Except ε α} {f : α → Except ε β} {b : β} :
    x >>= f = .ok b ↔ ∃ a, x = .ok a ∧ f a = .ok b := by
  cases x with
  | error e => exact ⟨fun h => (by cases h), fun ⟨_, h, _⟩ => (by cases h)⟩
  | ok a => exact ⟨fun h => ⟨a, rfl, h⟩, fun ⟨_, ha, hb⟩ => (by cases ha; exact hb)⟩

theorem map_eq_ok {ε α β : Type} {x : Except ε α} {f : α → β} {b : β} :
    x.map f = .ok b ↔ ∃ a, x = .ok a ∧ f a = b := by
  cases x <;> simp [Except.map]

theorem mapError_eq_ok {ε ε' α : Type} {x : Except ε α} {f : ε → ε'} {a : α} : x.mapError f = .ok a ↔ x = .ok a := by
  cases x <;> simp [Except.mapError]

theorem mapM_eq_ok {ε α β : Type} {f : α → Except ε β} : ∀ {xs : List α} {ys : List β},
    xs.mapM f = .ok ys ↔ List.Forall₂ (fun x y => f x = .ok y) xs ys
  | [], ys => by
    rw [List.mapM_nil]
    constructor
    · intro h
      cases h
      exact .nil
    · intro h
      cases h
      rfl
  | x :: xs, ys => by
    rw [List.mapM_cons, bind_eq_ok]
    constructor
    · rintro ⟨y, hy, h⟩
      obtain ⟨zs, hzs, h⟩ := bind_eq_ok.mp h
      cases h
      exact .cons hy (mapM_eq_ok.mp hzs)
    · intro h
      cases h with
      | cons hy hys => exact ⟨_, hy, bind_eq_ok.mpr ⟨_, mapM_eq_ok.mpr hys, rfl⟩⟩

/-! ## Answers without the cause of a failure -/

section

variable {ε ε' α α' β β' : Type}

theorem mem_toOption {x : Except ε α} {a : α} : a ∈ x.toOption ↔ x = .ok a := by
  cases x <;> simp [Except.toOption]

theorem toOption_bind (x : Except ε α) (f : α → Except ε β) :
    (x >>= f).toOption = x.toOption.bind fun a => (f a).toOption := by
  cases x <;> rfl

/-- Where each step answers alike up to a renaming, so do the steps on a whole list. -/
theorem toOption_mapM_map {f : α → Except ε β} {f' : α' → Except ε' β'} {r : α → α'} {g : β → β'}
    (h : ∀ x, (f' (r x)).toOption = (f x).toOption.map g) (xs : List α) :
    ((xs.map r).mapM f').toOption = (xs.mapM f).toOption.map (List.map g) := by
  induction xs with
  | nil => rfl
  | cons x xs ih =>
    rw [List.map_cons, List.mapM_cons, List.mapM_cons, toOption_bind, toOption_bind, h]
    cases (f x).toOption with
    | none => rfl
    | some y =>
      show ((xs.map r).mapM f' >>= _).toOption = (((xs.mapM f) >>= _).toOption).map _
      rw [toOption_bind, toOption_bind, ih]
      cases (xs.mapM f).toOption <;> rfl

end

theorem Logged.bind_result_eq_ok {α β : Type} {x : Logged α} {f : α → Logged β} {b : β} :
    (x >>= f).result = .ok b ↔ ∃ a, x.result = .ok a ∧ (f a).result = .ok b := by
  rw [Logged.result_bind, bind_eq_ok]

theorem Logged.result_mapM {α β : Type} (f : α → Logged β) (xs : List α) :
    (xs.mapM f).result = xs.mapM fun x => (f x).result := by
  induction xs with
  | nil => rfl
  | cons x xs ih =>
    rw [List.mapM_cons, List.mapM_cons, Logged.result_bind]
    refine congrArg _ (funext fun y => ?_)
    rw [Logged.result_bind, ih]
    rfl

/-! ## Two runs in step -/

section

variable {ε α α' β β' : Type}

/-- Both runs fail, or both succeed with results in the relation. -/
inductive InStep (R : α → α' → Prop) : Except ε α → Except ε α' → Prop
  | failed {e e' : ε} : InStep R (.error e) (.error e')
  | ok {a : α} {a' : α'} : R a a' → InStep R (.ok a) (.ok a')

variable {R : α → α' → Prop} {S : β → β' → Prop} {x : Except ε α} {x' : Except ε α'}

theorem inStep_iff : InStep R x x' ↔
    (∀ a, x = .ok a → ∃ a', x' = .ok a' ∧ R a a') ∧ ∀ a', x' = .ok a' → ∃ a, x = .ok a ∧ R a a' := by
  constructor
  · intro h
    cases h with
    | failed => exact ⟨fun _ h => (by cases h), fun _ h => (by cases h)⟩
    | ok hr => exact ⟨fun _ h => ⟨_, rfl, by cases h; exact hr⟩, fun _ h => ⟨_, rfl, by cases h; exact hr⟩⟩
  · rintro ⟨left, right⟩
    cases x with
    | ok a =>
      obtain ⟨a', rfl, hr⟩ := left a rfl
      exact .ok hr
    | error e =>
      cases x' with
      | error e' => exact .failed
      | ok a' =>
        obtain ⟨a, h, -⟩ := right a' rfl
        cases h

theorem InStep.refl (x : Except ε α) : InStep Eq x x := by
  cases x with
  | error e => exact .failed
  | ok a => exact .ok rfl

/-- The related results are those of the runs. -/
theorem InStep.of_ok (h : InStep R x x') : InStep (fun a a' => R a a' ∧ x = .ok a) x x' := by
  cases h with
  | failed => exact .failed
  | ok hr => exact .ok ⟨hr, rfl⟩

theorem InStep.bind {f : α → Except ε β} {f' : α' → Except ε β'} (h : InStep R x x')
    (hf : ∀ a a', R a a' → InStep S (f a) (f' a')) : InStep S (x >>= f) (x' >>= f') := by
  cases h with
  | failed => exact .failed
  | ok hr => exact hf _ _ hr

theorem InStep.map {f : α → β} {f' : α' → β'} (h : InStep R x x') (hf : ∀ a a', x = .ok a → R a a' → S (f a) (f' a')) :
    InStep S (x.map f) (x'.map f') := by
  cases h with
  | failed => exact .failed
  | ok hr => exact .ok (hf _ _ rfl hr)

theorem InStep.bind_result {x : Logged α} {x' : Logged α'} {f : α → Logged β}
    {f' : α' → Logged β'} (h : InStep R x.result x'.result)
    (hf : ∀ a a', R a a' → InStep S (f a).result (f' a').result) : InStep S (x >>= f).result (x' >>= f').result := by
  rw [Logged.result_bind, Logged.result_bind]
  exact h.bind hf

end

/-! ## What a step told -/

namespace Logged

variable {α β : Type} {x : Logged α} {f : α → Logged β}

@[simp] theorem log_pure (a : α) : (pure a : Logged α).log = [] := rfl

@[simp] theorem log_tell (events : List Event) : (tell events).log = events := rfl

/-- Two ways to go on that are the same after every success. -/
theorem bind_congr {g : α → Logged β} (h : ∀ a, x.result = .ok a → f a = g a) : x >>= f = x >>= g := by
  obtain ⟨log, result⟩ := x
  cases result with
  | error e => rfl
  | ok a => exact congrArg (fun y : Logged β => (⟨log ++ y.log, y.result⟩ : Logged β)) (h a rfl)

theorem log_bind {a : α} (h : x.result = .ok a) : (x >>= f).log = x.log ++ (f a).log := by
  obtain ⟨log, result⟩ := x
  cases h
  rfl

theorem mem_log_bind_left {ev : Event} (h : ev ∈ x.log) : ev ∈ (x >>= f).log := by
  obtain ⟨log, result⟩ := x
  cases result with
  | error e => exact h
  | ok a => exact List.mem_append_left _ h

theorem mem_log_bind_right {ev : Event} {a : α} (hx : x.result = .ok a) (h : ev ∈ (f a).log) : ev ∈ (x >>= f).log := by
  rw [log_bind hx]
  exact List.mem_append_right _ h

/-- An event of two steps is one of the first, or one of the second after a success. -/
theorem mem_log_bind {ev : Event} (h : ev ∈ (x >>= f).log) :
    ev ∈ x.log ∨ ∃ a, x.result = .ok a ∧ ev ∈ (f a).log := by
  obtain ⟨log, result⟩ := x
  cases result with
  | error e => exact Or.inl h
  | ok a => exact (List.mem_append.mp h).imp_right fun h => ⟨a, rfl, h⟩

end Logged

/-! ## Lists in step -/

theorem exists_of_forall₂ {α β : Type} {R : α → β → Prop} {xs : List α} {ys : List β}
    (h : List.Forall₂ R xs ys) : ∀ x ∈ xs, ∃ y ∈ ys, R x y := by
  induction h with
  | nil => exact fun x hx => (by cases hx)
  | cons hr _ ih =>
    intro x hx
    rcases List.mem_cons.mp hx with rfl | hx
    · exact ⟨_, List.mem_cons_self .., hr⟩
    · obtain ⟨y, hy, hxy⟩ := ih x hx
      exact ⟨y, List.mem_cons_of_mem _ hy, hxy⟩

theorem exists_of_forall₂_right {α β : Type} {R : α → β → Prop} {xs : List α} {ys : List β}
    (h : List.Forall₂ R xs ys) : ∀ y ∈ ys, ∃ x ∈ xs, R x y :=
  exists_of_forall₂ (List.Forall₂.flip (R := flip R) h)

theorem exists_forall₂ {α β : Type} {R : α → β → Prop} : ∀ {xs : List α},
    (∀ x ∈ xs, ∃ y, R x y) → ∃ ys, List.Forall₂ R xs ys
  | [], _ => ⟨[], .nil⟩
  | x :: _, h => by
    obtain ⟨y, hy⟩ := h x (List.mem_cons_self ..)
    obtain ⟨ys, hys⟩ := exists_forall₂ fun z hz => h z (List.mem_cons_of_mem _ hz)
    exact ⟨y :: ys, .cons hy hys⟩

end SpirvLink
