/-
  SpirvLink.Function.Basic — a function, read off its lines.

  A function runs from `%name = OpFunction` to `OpFunctionEnd`. Nothing is stored but the
  lines, so a renaming of the lines renames every answer.
-/

import SpirvLink.Block.Basic
import SpirvLink.Function.Call

namespace SpirvLink

structure Function where
  lines : List Line
deriving DecidableEq

/-- The function that a block with a body holds. -/
def Block.function? (b : Block) : Option Function :=
  if b.hasBody then some ⟨b.lines⟩ else none

namespace Function

/-! ## Signature -/

def declaration (f : Function) : Except LinkError Line :=
  match f.lines with
  | [] => .error (.malformedFunction [] .empty)
  | first :: _ =>
    if first.hasOpcode Opcode.function && first.defined?.isSome then .ok first
    else .error (.malformedFunction first.text .notDeclared)

def name (f : Function) : Except LinkError Text := do
  let first ← f.declaration
  match first.defined? with
  | some id => return id
  | none => throw (.malformedFunction first.text .notDeclared)

def returnType (f : Function) : Except LinkError Text := do
  let first ← f.declaration
  match first.rhsIds with
  | id :: _ => return id
  | [] => throw (.malformedFunction first.text .noReturnType)

def parameterLines (f : Function) : List Line :=
  f.lines.filter (Line.hasOpcode Opcode.functionParameter)

def arity (f : Function) : Nat :=
  f.parameterLines.length

def parameters (f : Function) : Except LinkError (List Text) :=
  f.parameterLines.mapM fun l =>
    match l.defined? with
    | some id => .ok id
    | none => .error (.malformedFunction l.text .unnamedParameter)

/-- The first line declares a function of this name. -/
def isNamed (id : Text) (f : Function) : Bool :=
  f.lines.head?.any fun first => first.defined? == some id && first.hasOpcode Opcode.function

theorem isNamed_iff {id : Text} {f : Function} : f.isNamed id = true ↔ f.name = .ok id := by
  cases f with
  | mk lines =>
    cases lines with
    | nil => simp [isNamed, name, declaration, bind, Except.bind]
    | cons first rest =>
      cases hd : first.defined? <;> cases ho : first.hasOpcode Opcode.function <;>
        simp [isNamed, name, declaration, bind, Except.bind, pure, Except.pure, hd, ho]

/-! ## Body -/

/-- The first identifier on the first line that returns a value. -/
def returnValue? (f : Function) : Option Text :=
  (f.lines.find? (Line.hasOpcode Opcode.returnValue)).bind fun l => l.ids.head?

/-- The lines between the first label and the first return after it. -/
def body (f : Function) : Except LinkError (List Line) := do
  let name ← f.name
  match f.lines.dropWhile fun l => !l.hasOpcode Opcode.label with
  | [] => throw (.malformedFunction name .noLabel)
  | _ :: rest =>
    if rest.any Line.isReturn then return rest.takeWhile fun l => !l.isReturn
    else throw (.malformedFunction name .noReturn)

/-! ## Calls -/

def hasCalls (f : Function) : Bool :=
  f.lines.any Line.isCall

def calls (f : Function) : Except LinkError (List Call) :=
  (f.lines.filter Line.isCall).mapM Call.ofLine

/-- The names of the functions called, one for each call, in order. -/
def callees (f : Function) : Except LinkError (List Text) :=
  return (← f.calls).map Call.callee

def callsItself (f : Function) : Except LinkError Bool := do
  let name ← f.name
  return (← f.callees).contains name

/-! ## Void functions -/

def voidType : Text := "%void".toList

/-- The void type with a prefix behind its percent sign. -/
def voidTypeWith (p : Text) : Text :=
  Text.sigil :: p ++ voidType.tail

/-- The function has the void type, plain or with the prefix, and its last line but one is
    a bare return. -/
def returnsVoid (p : Text) (f : Function) : Except LinkError Bool := do
  let type ← f.returnType
  if type != voidType && type != voidTypeWith p then return false
  match f.lines.reverse with
  | _ :: line :: _ :: _ :: _ => return Text.trim line.text == Opcode.ret
  | _ => throw (.malformedFunction (← f.name) .tooShort)

end Function

/-- The block holds a function of this name. -/
def Block.isFunctionNamed (id : Text) (b : Block) : Bool :=
  b.function?.any (Function.isNamed id)

end SpirvLink
