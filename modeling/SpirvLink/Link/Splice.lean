/-
  SpirvLink.Link.Splice — one module out of a wrapper and a kernel.

  Both modules start with header, decorations and definitions. The result has the
  wrapper's header and decorations, both modules' definitions, both modules' variables, the
  wrapper's functions and declarations, and the kernel's functions, its main function
  among them as a plain one.
-/

import SpirvLink.Module.Basic

namespace SpirvLink.Splice

/-- Takes the next block, which has to be of a kind. -/
def expect (role : ModuleRole) (kind : BlockKind) : List Block → Except LinkError (Block × List Block)
  | [] => .error (.missingBlock role kind)
  | b :: bs => if b.kind = kind then .ok (b, bs) else .error (.unexpectedBlock role kind b.kind)

/-- Checks the wrapper's blocks after its variables: functions, declarations and one main
    function. The flag tells whether main was seen. -/
def checkWrapperRest : Bool → List Block → Except LinkError Unit
  | hasMain, [] => if hasMain then .ok () else .error .missingMain
  | hasMain, b :: bs =>
    match b.kind with
    | .main => if hasMain then .error .duplicateMain else checkWrapperRest true bs
    | .function | .declaration => checkWrapperRest hasMain bs
    | kind => .error (.unexpectedBlock .wrapper .function kind)

/-- The kernel's functions. Its declarations are dropped; a function that calls itself is
    refused. -/
def kernelFunctions : List Block → Except LinkError (List Block)
  | [] => .ok []
  | b :: bs =>
    match b.kind with
    | .declaration => kernelFunctions bs
    | .function | .main => do
      let f : Function := ⟨b.lines⟩
      if ← f.callsItself then throw (.recursiveFunction (← f.name))
      return ⟨.function, b.lines⟩ :: (← kernelFunctions bs)
    | kind => .error (.unexpectedBlock .kernel .function kind)

/-- Takes the kernel's variables, which it need not have. -/
def takeVariables : List Block → List Block × List Block
  | [] => ([], [])
  | b :: bs => if b.kind = .globalVariables then ([b], bs) else ([], b :: bs)

end SpirvLink.Splice

namespace SpirvLink

/-- Checks both modules block by block and joins them. -/
def splice (kernel wrapper : Module) : Except LinkError Module := do
  let (header, w) ← Splice.expect .wrapper .header wrapper.blocks
  let (_, k) ← Splice.expect .kernel .header kernel.blocks
  let (decorations, w) ← Splice.expect .wrapper .decorations w
  let (_, k) ← Splice.expect .kernel .decorations k
  let (definitions, w) ← Splice.expect .wrapper .definitions w
  let (kernelDefinitions, k) ← Splice.expect .kernel .definitions k
  let (wrapperVariables, w) ← Splice.expect .wrapper .globalVariables w
  let (kernelVariables, k) := Splice.takeVariables k
  Splice.checkWrapperRest false w
  let functions ← Splice.kernelFunctions k
  return ⟨[header, decorations, definitions, kernelDefinitions, wrapperVariables] ++ kernelVariables ++
    w ++ functions⟩

end SpirvLink
