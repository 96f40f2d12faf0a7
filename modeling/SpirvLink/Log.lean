/-
  SpirvLink.Log — what a link tells while it runs.

  A step tells events, and a `Logged` step carries them beside its result, so the events
  before a failure are kept. `Event.message` gives the one text for each event.
-/

import SpirvLink.Block.Basic
import SpirvLink.Error

namespace SpirvLink

inductive Level where
  | warn
  | debug
  | trace
deriving DecidableEq

def Level.name : Level → String
  | warn => "WARN"
  | debug => "DEBUG"
  | trace => "TRACE"

/-- The moments of a link at which the module is shown. -/
inductive Moment where
  | prefixed
  | spliced
  | inlined
  | finished
deriving DecidableEq

def Moment.title : Moment → String
  | prefixed => "Kernel module after prefixing:"
  | spliced => "Module after splice:"
  | inlined => "Module after inlining:"
  | finished => "Final module:"

inductive Event where
  | blockRead (kind : BlockKind) (name : Text)
  | kernelResolved (id : Text)
  | showing (moment : Moment)
  | blockOpened (kind : BlockKind)
  | blockLine (line : Line)
  | blockClosed (kind : BlockKind)
  | storageClassMoved (count : Nat) (old new : Text)
  | placeholderRepeated (callee : Text) (times : Nat)
  | copying (call : Line) (callee : Text) (copy : Nat)
  | renamed (old new : Text)
  | passDone (pass : Nat)
  | accessChainReplaced (old new : Line)
  | lanesReplaced (count : Nat)
  | functionRemoved (name : Text)
  | fusing (id first key : Text)
  | fused (count : Nat)
deriving DecidableEq

namespace Event

def level : Event → Level
  | placeholderRepeated _ _ => .warn
  | blockRead _ _ | copying _ _ _ | accessChainReplaced _ _ | fusing _ _ _ => .trace
  | _ => .debug

def message : Event → String
  | blockRead kind name => "Parsed " ++ kind.name ++ " block " ++ String.ofList name
  | kernelResolved id => "Kernel entry point resolved to " ++ String.ofList id
  | showing moment => moment.title
  | blockOpened kind => kind.name ++ "Block: \x7b"
  | blockLine line => (if line.hasCode then "\t" else "") ++ String.ofList line.text
  | blockClosed kind => "\x7d (" ++ kind.name ++ "Block)"
  | storageClassMoved count old new =>
    "Rewrote " ++ toString count ++ " " ++ quoted old ++ " storage class occurrences to " ++ quoted new
  | placeholderRepeated callee times =>
    "Main function references " ++ String.ofList callee ++ " " ++ toString times ++ " times"
  | copying call _ copy => "Inlining " ++ String.ofList call.text ++ " (copy " ++ toString copy ++ ")"
  | renamed old new => "New rename: " ++ String.ofList old ++ " -> " ++ String.ofList new
  | passDone pass => "Inlining pass " ++ toString pass ++ " done"
  | accessChainReplaced old new => String.ofList old.text ++ " -> " ++ String.ofList new.text
  | lanesReplaced count => "Replaced " ++ toString count ++ " undefined shuffle lanes"
  | functionRemoved name => "Removing unused function " ++ String.ofList name
  | fusing id first key =>
    "Fusing " ++ String.ofList id ++ " into " ++ String.ofList first ++ " (" ++ String.ofList key ++ ")"
  | fused count => "Fused " ++ toString count ++ " duplicate types and constants"

end Event

/-! ## Steps that tell -/

structure Logged (α : Type) where
  log : List Event
  result : Except LinkError α

namespace Logged

instance : Monad Logged where
  pure a := ⟨[], .ok a⟩
  bind x f :=
    match x.result with
    | .ok a => ⟨x.log ++ (f a).log, (f a).result⟩
    | .error e => ⟨x.log, .error e⟩

theorem ext {x y : Logged α} (log : x.log = y.log) (result : x.result = y.result) : x = y := by
  cases x
  cases y
  simp_all

instance : LawfulMonad Logged := LawfulMonad.mk' Logged
  (fun x => by
    cases x with
    | mk log r => cases r <;> simp [Functor.map])
  (fun a f => by simp [bind, pure])
  (fun x f g => by
    cases x with
    | mk log r =>
      cases r with
      | error e => rfl
      | ok a =>
        simp only [bind]
        cases (f a).result <;> simp)

def ofExcept (x : Except LinkError α) : Logged α :=
  ⟨[], x⟩

instance : MonadLift (Except LinkError) Logged where
  monadLift := ofExcept

def tell (events : List Event) : Logged Unit :=
  ⟨events, .ok ()⟩

def fail (e : LinkError) : Logged α :=
  ⟨[], .error e⟩

/-! The result of a step does not depend on what was told. -/

@[simp] theorem result_pure (a : α) : (pure a : Logged α).result = .ok a := rfl

@[simp] theorem result_bind (x : Logged α) (f : α → Logged β) :
    (x >>= f).result = x.result >>= fun a => (f a).result := by
  cases x with
  | mk log result => cases result <;> rfl

@[simp] theorem result_tell (events : List Event) : (tell events).result = .ok () := rfl

@[simp] theorem result_ofExcept (x : Except LinkError α) : (ofExcept x).result = x := rfl

@[simp] theorem result_fail (e : LinkError) : (fail e : Logged α).result = .error e := rfl

end Logged

/-- The events that show a block. -/
def Block.shown (b : Block) : List Event :=
  .blockOpened b.kind :: b.lines.map .blockLine ++ [.blockClosed b.kind]

end SpirvLink
