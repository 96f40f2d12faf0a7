/-
  SpirvLink.Proofs.Meaning.Execution — what straight-line functions do.

  Values, and what instructions result in, are left open: an instruction adds its opcode and
  operands to a trace, and its result is any function of those and of the trace so far
  (`Interpretation`). A call runs the body of its callee with the parameters bound to the
  arguments, and its result is the value returned. A function that calls on without end, an
  identifier without a value and a callee that is no function have no outcome.

  Calls are counted in depth. A greater depth has the same outcome (`invoke_mono`), so a
  module has at most one (`Means.unique`).
-/

import SpirvLink.Proofs.Module

namespace SpirvLink.Semantics

/-! ## Traces and values -/

/-- A word after an opcode: the value of an identifier, or any other word as it stands. -/
inductive Operand (V : Type) where
  | literal (word : Text)
  | value (v : V)

/-- An instruction as it was executed. -/
structure Entry (V : Type) where
  opcode : Text
  operands : List (Operand V)

/-- What an instruction results in, given what was executed before it. -/
abbrev Interpretation (V : Type) :=
  Entry V → List (Entry V) → V

/-- The values of identifiers. -/
abbrev Env (V : Type) :=
  Text → Option V

structure State (V : Type) where
  env : Env V
  trace : List (Entry V)

/-- What a function did, and the value it returned, if it returned one. -/
structure Outcome (V : Type) where
  trace : List (Entry V)
  returned : Option V

namespace Env

variable {V : Type}

def set (E : Env V) (id : Text) (v : V) : Env V :=
  fun x => if x = id then some v else E x

/-- Binds identifiers to values, one by one. -/
def setAll (E : Env V) (ids : List Text) (vs : List V) : Env V :=
  fun x => ((ids.zip vs).lookup x).or (E x)

/-- Binds what a line defines, if it defines anything and there is a value. -/
def setResult (E : Env V) : Option Text → Option V → Env V
  | some id, some v => E.set id v
  | _, _ => E

def operand (E : Env V) (word : Text) : Option (Operand V) :=
  if word.head? = some Text.sigil then (E word).map .value else some (.literal word)

end Env

/-! ## Lines and bodies -/

section Run

variable {V : Type} (I : Interpretation V) (m : Module)

/-- The function that a call runs. -/
def callee? (m : Module) (id : Text) : Option Function :=
  m.plainFunctions.find? (Function.isNamed id)

theorem callee?_of_resolve {m : Module} {f : Function} {id : Text} (h : Inlining.resolve m id = .ok f) :
    callee? m id = some f := by
  rw [callee?, ← List.head?_filter, Module.resolve_eq_ok.mp h]
  rfl

def instruction (l : Line) (s : State V) : Option (State V) := do
  let operands ← l.operands.mapM s.env.operand
  let entry : Entry V := ⟨l.opcode?.getD [], operands⟩
  return ⟨s.env.setResult l.defined? (some (I entry s.trace)), s.trace ++ [entry]⟩

/-- How a callee runs on arguments, after what was executed before. -/
abbrev Callees (V : Type) :=
  Function → List V → List (Entry V) → Option (Outcome V)

def call (run : Callees V) (l : Line) (s : State V) : Option (State V) := do
  let call ← (Call.ofLine l).toOption
  let f ← callee? m call.callee
  let arguments ← call.arguments.mapM s.env
  let out ← run f arguments s.trace
  return ⟨s.env.setResult (some call.result) out.returned, out.trace⟩

def step (run : Callees V) (l : Line) (s : State V) : Option (State V) :=
  if l.isCall then call m run l s else instruction I l s

def exec (run : Callees V) : List Line → State V → Option (State V)
  | [], s => some s
  | l :: ls, s => (step I m run l s).bind (exec run ls)

end Run

/-! ## Functions -/

/-- The return that ends a function. -/
def exit? (f : Function) : Option Line :=
  f.afterLabel.find? Line.isReturn

section Functions

variable {V : Type} (I : Interpretation V) (m : Module) (base : Env V)

/-- Leaves a function at its return. -/
def leave (f : Function) (s : State V) : Option (Outcome V) := do
  let exit ← exit? f
  if exit.hasOpcode Opcode.returnValue then
    let id ← exit.operandIds.head?
    let v ← s.env id
    return ⟨s.trace, some v⟩
  else return ⟨s.trace, none⟩

/-- Runs a function on arguments, with calls up to a depth. -/
def invoke : Nat → Callees V
  | 0, _, _, _ => none
  | depth + 1, f, arguments, trace =>
    if f.parameterIds.length = arguments.length then
      (exec I m (invoke depth) f.bodyLines ⟨base.setAll f.parameterIds arguments, trace⟩).bind (leave f)
    else none

end Functions

/-! ## Modules -/

/-- The module mentions the identifier, and no line of a function or of main defines it. -/
def IsGlobal (m : Module) (id : Text) : Prop :=
  (∃ l ∈ m.lines, id ∈ l.ids) ∧ ∀ f ∈ m.functions, id ∉ f.lines.filterMap Line.defined?

instance (m : Module) (id : Text) : Decidable (IsGlobal m id) :=
  inferInstanceAs (Decidable (_ ∧ _))

/-- The values of the global identifiers. -/
def globals {V : Type} (m : Module) (G : Text → V) : Env V :=
  fun id => if IsGlobal m id then some (G id) else none

/-- Main, run on arguments, has this outcome. -/
def Means {V : Type} (m : Module) (I : Interpretation V) (G : Text → V) (arguments : List V) (out : Outcome V) : Prop :=
  ∃ main depth, m.main? = some main ∧ invoke I m (globals m G) depth main arguments [] = some out

/-! ## Depth -/

section Depth

variable {V : Type} {I : Interpretation V} {m : Module} {base : Env V} {run run' : Callees V} {l : Line}
  {ls ls' : List Line} {s s' : State V} {f : Function} {arguments : List V} {trace : List (Entry V)}
  {out out' : Outcome V} {G : Text → V}

theorem exec_append : exec I m run (ls ++ ls') s = (exec I m run ls s).bind (exec I m run ls') := by
  induction ls generalizing s with
  | nil => rfl
  | cons l ls ih =>
    rw [List.cons_append, exec, exec, Option.bind_assoc]
    exact congrArg _ (funext fun s => ih)

theorem step_call_eq_some (hcall : l.isCall = true) : step I m run l s = some s' ↔
    ∃ call f arguments out, Call.ofLine l = .ok call ∧ callee? m call.callee = some f ∧
      call.arguments.mapM s.env = some arguments ∧ run f arguments s.trace = some out ∧
      s' = ⟨s.env.setResult (some call.result) out.returned, out.trace⟩ := by
  rw [step, if_pos hcall, call]
  simp only [Option.bind_eq_bind, Option.bind_eq_some_iff, Option.pure_def, Option.some.injEq]
  constructor
  · rintro ⟨call, hline, f, hf, arguments, ha, out, hout, rfl⟩
    refine ⟨call, f, arguments, out, ?_, hf, ha, hout, rfl⟩
    cases hc : Call.ofLine l with
    | error e =>
      rw [hc] at hline
      cases hline
    | ok other =>
      rw [hc] at hline
      exact congrArg _ (Option.some.inj hline)
  · rintro ⟨call, f, arguments, out, hline, hf, ha, hout, rfl⟩
    exact ⟨call, by rw [hline]; rfl, f, hf, arguments, ha, out, hout, rfl⟩

theorem step_instruction_eq_some (hcall : l.isCall = false) : step I m run l s = some s' ↔
    ∃ operands, l.operands.mapM s.env.operand = some operands ∧
      s' = ⟨s.env.setResult l.defined? (some (I ⟨l.opcode?.getD [], operands⟩ s.trace)),
        s.trace ++ [⟨l.opcode?.getD [], operands⟩]⟩ := by
  rw [step, if_neg (by simp [hcall]), instruction]
  simp only [Option.bind_eq_bind, Option.bind_eq_some_iff, Option.pure_def, Option.some.injEq]
  exact exists_congr fun operands => and_congr_right fun _ => eq_comm

/-- Callees with more outcomes give a line the outcome it has. -/
theorem step_mono (h : ∀ f arguments trace out, run f arguments trace = some out → run' f arguments trace = some out)
    (hs : step I m run l s = some s') : step I m run' l s = some s' := by
  cases hcall : l.isCall with
  | true =>
    obtain ⟨call, f, arguments, out, hline, hf, ha, hout, rfl⟩ := (step_call_eq_some hcall).mp hs
    exact (step_call_eq_some hcall).mpr ⟨call, f, arguments, out, hline, hf, ha, h _ _ _ _ hout, rfl⟩
  | false => exact (step_instruction_eq_some hcall).mpr ((step_instruction_eq_some hcall).mp hs)

theorem exec_mono (h : ∀ f arguments trace out, run f arguments trace = some out → run' f arguments trace = some out)
    (hs : exec I m run ls s = some s') : exec I m run' ls s = some s' := by
  induction ls generalizing s with
  | nil => exact hs
  | cons l ls ih =>
    obtain ⟨s₁, hl, hrest⟩ := Option.bind_eq_some_iff.mp hs
    exact Option.bind_eq_some_iff.mpr ⟨s₁, step_mono h hl, ih hrest⟩

theorem invoke_succ_eq_some {depth : Nat} : invoke I m base (depth + 1) f arguments trace = some out ↔
    f.parameterIds.length = arguments.length ∧
      ∃ s, exec I m (invoke I m base depth) f.bodyLines ⟨base.setAll f.parameterIds arguments, trace⟩ = some s ∧
        leave f s = some out := by
  rw [invoke]
  split
  · next h => simp [h, Option.bind_eq_some_iff]
  · next h => simp [h]

theorem invoke_mono {depth depth' : Nat} (hle : depth ≤ depth') (h : invoke I m base depth f arguments trace = some out) :
    invoke I m base depth' f arguments trace = some out := by
  induction depth generalizing depth' f arguments trace out with
  | zero => cases h
  | succ depth ih =>
    obtain ⟨k, rfl⟩ := Nat.exists_eq_add_of_le' (Nat.zero_lt_of_lt hle)
    obtain ⟨harity, s, hs, hleave⟩ := invoke_succ_eq_some.mp h
    exact invoke_succ_eq_some.mpr ⟨harity, s, exec_mono (fun _ _ _ _ => ih (Nat.le_of_succ_le_succ hle)) hs, hleave⟩

/-- A module has at most one outcome. -/
theorem Means.unique (h : Means m I G arguments out) (h' : Means m I G arguments out') : out = out' := by
  obtain ⟨main, depth, hmain, hrun⟩ := h
  obtain ⟨main', depth', hmain', hrun'⟩ := h'
  cases hmain.symm.trans hmain'
  have left := invoke_mono (Nat.le_max_left depth depth') hrun
  have right := invoke_mono (Nat.le_max_right depth depth') hrun'
  exact Option.some.inj (left.symm.trans right)

end Depth

end SpirvLink.Semantics
