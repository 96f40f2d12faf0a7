/-
  SpirvLink.Reachable — functions that main does not need.

  A function is needed if main calls it, directly or through functions that it needs. The
  search keeps the names still to look at, last called first, and ends when every name left
  is known or has no function.
-/

import SpirvLink.Module.Basic

namespace SpirvLink.Module

/-- The names of functions that can be reached from the calls on the stack. Each round adds
    the name of another function, so the number of functions is fuel enough. -/
def reachFrom (functions : List Function) :
    Nat → List Text → List Text → Except LinkError (List Text)
  | 0, reached, _ => .ok reached
  | fuel + 1, reached, stack =>
    match stack.dropWhile fun n => reached.contains n || !functions.any (Function.isNamed n) with
    | [] => .ok reached
    | n :: rest => do
      let called ← (functions.filter (Function.isNamed n)).mapM Function.callees
      reachFrom functions fuel (n :: reached) (called.flatten.reverse ++ rest)

/-- The names of the functions that main reaches. -/
def reached (m : Module) : Except LinkError (List Text) :=
  match m.main? with
  | none => .error .missingMain
  | some main => do reachFrom m.functions m.functions.length [] (← main.callees).reverse

/-- The names of the plain functions, main not among them. -/
def functionNames (m : Module) : Except LinkError (List Text) :=
  (m.blocks.filter fun b => b.kind == .function).mapM fun b => (⟨b.lines⟩ : Function).name

/-- The block is a plain function with one of the names. -/
def isFunctionAmong (names : List Text) (b : Block) : Bool :=
  b.kind == .function && names.any fun n => b.isFunctionNamed n

/-- Distinct names in the order of their code points. -/
def sortedNames (names : List Text) : List Text :=
  names.eraseDups.mergeSort fun a b => !decide (b < a)

/-- Removes the plain functions that main does not reach and counts them. -/
def removeUnused (m : Module) : Logged (Nat × Module) := do
  let reached ← m.reached
  let unused := (← m.functionNames).filter fun n => !reached.contains n
  Logged.tell ((sortedNames unused).map .functionRemoved)
  return (m.blocks.countP (isFunctionAmong unused), m.dropBlocks (isFunctionAmong unused))

end SpirvLink.Module
