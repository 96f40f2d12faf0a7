/-
  SpirvLink.Opcode — the instructions that a link looks at.

  Every other opcode is copied as it stands.
-/

import SpirvLink.Text.Blank

namespace SpirvLink.Opcode

def string : Text := "OpString".toList
def function : Text := "OpFunction".toList
def functionParameter : Text := "OpFunctionParameter".toList
def functionCall : Text := "OpFunctionCall".toList
def functionEnd : Text := "OpFunctionEnd".toList
def label : Text := "OpLabel".toList
def ret : Text := "OpReturn".toList
def returnValue : Text := "OpReturnValue".toList
def inBoundsPtrAccessChain : Text := "OpInBoundsPtrAccessChain".toList
def accessChain : Text := "OpAccessChain".toList
def vectorShuffle : Text := "OpVectorShuffle".toList

def decorations : List Text :=
  ["OpDecorate".toList, "OpMemberDecorate".toList, "OpDecorationGroup".toList,
    "OpGroupDecorate".toList, "OpGroupMemberDecorate".toList]

/-- How the opcodes of types, constants and specialization constants begin. -/
def definitionStems : List Text :=
  ["OpType".toList, "OpConstant".toList, "OpSpecConstant".toList]

/-- The return instructions, with and without a value. -/
def isReturn (op : Text) : Bool :=
  op == ret || op == returnValue

def isDecoration (op : Text) : Bool :=
  decorations.contains op

def isTypeOrConstant (op : Text) : Bool :=
  definitionStems.any (·.isPrefixOf op)

end SpirvLink.Opcode
