/-
  SpirvLink.Lowering.AccessChain — plain access chains in place of in-bounds pointer ones.

  `%p = OpInBoundsPtrAccessChain %type %base %element %index*` becomes
  `%p = OpAccessChain %type %base %index*`. An instruction with no index is refused.
-/

import SpirvLink.Log

namespace SpirvLink

namespace Line

def isPtrChain (l : Line) : Bool :=
  l.hasOpcode Opcode.inBoundsPtrAccessChain

/-- The access chain without its element operand. -/
def dropElement (l : Line) : Except LinkError Line :=
  match l.operands with
  | type :: base :: _ :: index :: rest =>
    .ok (ofParts l.defined? Opcode.accessChain (type :: base :: index :: rest))
  | _ => .error (.malformedInstruction l.text .shortAccessChain)

/-- Replaces the pointer access chains up to the first that is refused, and counts them. -/
def dropElements : List Line → List Line × Logged Nat
  | [] => ([], pure 0)
  | l :: ls =>
    if l.isPtrChain then
      match l.dropElement with
      | .error e => (l :: ls, Logged.fail e)
      | .ok new =>
        let (rest, count) := dropElements ls
        (new :: rest, do
          Logged.tell [.accessChainReplaced l new]
          return (← count) + 1)
    else
      let (rest, count) := dropElements ls
      (l :: rest, count)

end Line

end SpirvLink
