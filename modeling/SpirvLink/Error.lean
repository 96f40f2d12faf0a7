/-
  SpirvLink.Error — why a link fails.

  A failure is a value that holds its cause; `LinkError.message` gives the one text for
  each cause. Nothing is written when a link fails.
-/

import SpirvLink.Text.Blank
import SpirvLink.Block.Kind

namespace SpirvLink

/-- The module that a structural error was found in. -/
inductive ModuleRole where
  | kernel
  | wrapper
  | output
deriving DecidableEq

def ModuleRole.name : ModuleRole → String
  | kernel => "kernel"
  | wrapper => "wrapper"
  | output => "output"

/-- What is wrong with the lines of a function. -/
inductive FunctionFault where
  | empty
  | notDeclared
  | noReturnType
  | unnamedParameter
  | noLabel
  | noReturn
  | tooShort
  | notAFunction
  | noEnd
deriving DecidableEq

def FunctionFault.message : FunctionFault → String
  | empty => "empty function block"
  | notDeclared => "function must start with '%name = OpFunction'"
  | noReturnType => "no return type"
  | unnamedParameter => "unnamed parameter"
  | noLabel => "no OpLabel"
  | noReturn => "no return instruction"
  | tooShort => "needs at least OpFunction, OpLabel, OpReturn and OpFunctionEnd"
  | notAFunction => "functions should start with OpFunction"
  | noEnd => "missing OpFunctionEnd"

/-- What is wrong with the operands of an instruction. -/
inductive InstructionFault where
  | callWithoutResult
  | callWithoutCallee
  | shortAccessChain
deriving DecidableEq

def InstructionFault.opcode : InstructionFault → String
  | callWithoutResult | callWithoutCallee => "OpFunctionCall"
  | shortAccessChain => "OpInBoundsPtrAccessChain"

def InstructionFault.message : InstructionFault → String
  | callWithoutResult => "no result id"
  | callWithoutCallee => "no return type and function name"
  | shortAccessChain => "expected at least 4 operands"

/-- Why a file could not be read or created. -/
inductive FileFault where
  | notFound
  | notADirectory
  | isADirectory
  | notUtf8
  | other (reason : Text)
deriving DecidableEq

def FileFault.message : FileFault → String
  | notFound => "No such file or directory (os error 2)"
  | notADirectory => "Not a directory (os error 20)"
  | isADirectory => "Is a directory (os error 21)"
  | notUtf8 => "stream did not contain valid UTF-8"
  | other reason => String.ofList reason

/-- Why the options of a link are refused. -/
inductive ConfigFault where
  | emptyPrefix
  | blankInPrefix (given : Text)
  | notAnIdentifier (field id : Text)
  | emptyStorageClass
  | unreadable (path : Text)
deriving DecidableEq

/-- A text in single quotation marks. -/
def quoted (s : Text) : String :=
  "'" ++ String.ofList s ++ "'"

def ConfigFault.message : ConfigFault → String
  | emptyPrefix => "kernel_prefix must not be empty"
  | blankInPrefix given => "kernel_prefix " ++ quoted given ++ " contains whitespace"
  | notAnIdentifier field id => String.ofList field ++ " " ++ quoted id ++ " is not an identifier"
  | emptyStorageClass => "storage classes must not be empty"
  | unreadable path => String.ofList path ++ ":"

inductive LinkError where
  | missingBlock (role : ModuleRole) (expected : BlockKind)
  | unexpectedBlock (role : ModuleRole) (expected found : BlockKind)
  | malformedFunction (place : Text) (fault : FunctionFault)
  | malformedInstruction (line : Text) (fault : InstructionFault)
  | missingMain
  | duplicateMain
  | kernelNamesNotFound
  | unsupportedKernelCount (count : Nat)
  | placeholderNotFound (callee : Text)
  | unresolvedCallee (name : Text) (candidates : Nat)
  | arityMismatch (callee : Text) (arguments parameters : Nat)
  | missingReturnValue (function : Text)
  | recursiveFunction (name : Text)
  | recursiveCallChain (chain : List Text)
  | endlessInlining (passes : Nat)
  | file (path : Text) (fault : FileFault)
  | config (fault : ConfigFault)
deriving DecidableEq

def LinkError.message : LinkError → String
  | missingBlock role expected =>
    role.name ++ " module ended early, expected a " ++ expected.name ++ " block"
  | unexpectedBlock role expected found =>
    role.name ++ " module has a " ++ found.name ++ " block where a " ++ expected.name ++
      " block was expected"
  | malformedFunction place fault =>
    "Malformed function: " ++ fault.message ++ ": " ++ quoted place
  | malformedInstruction line fault =>
    "Malformed " ++ fault.opcode ++ ": " ++ fault.message ++ ": " ++ quoted line
  | missingMain => "Wrapper module has no main function"
  | duplicateMain => "More than one main function found in wrapper module"
  | kernelNamesNotFound => "Kernel names not found in wrapper header"
  | unsupportedKernelCount count => "Unsupported number of kernels: " ++ toString count
  | placeholderNotFound callee =>
    "Main function never references the placeholder " ++ quoted callee
  | unresolvedCallee name candidates =>
    "Callee " ++ quoted name ++ " not found (" ++ toString candidates ++ " matching functions)"
  | arityMismatch callee arguments parameters =>
    "Arity mismatch calling " ++ quoted callee ++ " (caller: " ++ toString arguments ++
      ", callee: " ++ toString parameters ++ ")"
  | missingReturnValue function =>
    "Return value not found for " ++ quoted function ++ " with non-void return type"
  | recursiveFunction name => "Function " ++ quoted name ++ " is recursive"
  | recursiveCallChain chain =>
    "Recursive call chain: " ++ " -> ".intercalate (chain.map String.ofList)
  | endlessInlining passes => "Main still has calls after " ++ toString passes ++ " passes"
  | file path fault => "IO error on " ++ String.ofList path ++ ": " ++ fault.message
  | config fault => "Invalid linker configuration: " ++ fault.message

end SpirvLink
