/-
  SpirvLink.Function.Call — a call instruction, `%result = OpFunctionCall %type %callee %argument*`.
-/

import SpirvLink.Line.Basic
import SpirvLink.Error

namespace SpirvLink

structure Call where
  result : Text
  returnType : Text
  callee : Text
  arguments : List Text
deriving DecidableEq

/-- Reads a call: it needs a result, a return type and a callee. -/
def Call.ofLine (l : Line) : Except LinkError Call :=
  match l.defined?, l.rhsIds with
  | none, _ => .error (.malformedInstruction l.text .callWithoutResult)
  | some result, returnType :: callee :: arguments => .ok ⟨result, returnType, callee, arguments⟩
  | some _, _ => .error (.malformedInstruction l.text .callWithoutCallee)

end SpirvLink
