/-
  SpirvLink.Block.Kind — the seven kinds of block, in the order that a module keeps.
-/

namespace SpirvLink

inductive BlockKind where
  | header
  | decorations
  | definitions
  | globalVariables
  | declaration
  | function
  | main
deriving DecidableEq

namespace BlockKind

/-- Every kind, in module order. -/
def all : List BlockKind :=
  [header, decorations, definitions, globalVariables, declaration, function, main]

def name : BlockKind → String
  | header => "Header"
  | decorations => "Decor"
  | definitions => "TypeAndConst"
  | globalVariables => "Var"
  | declaration => "FunDecl"
  | function => "Function"
  | main => "MainFun"

theorem mem_all (k : BlockKind) : k ∈ all := by
  cases k <;> decide

end BlockKind

end SpirvLink
