/-
  SpirvLink.Block.Basic — a run of lines that share one role in a module.
-/

import SpirvLink.Block.Kind
import SpirvLink.Line.Edit

namespace SpirvLink

structure Block where
  kind : BlockKind
  lines : List Line
deriving DecidableEq

namespace Block

/-- A block whose lines lose the blanks at their ends. -/
def ofLines (kind : BlockKind) (lines : List Line) : Block :=
  ⟨kind, lines.map Line.trim⟩

def addLine (b : Block) (l : Line) : Block :=
  { b with lines := b.lines ++ [l.trim] }

def mapLines (f : Line → Line) (b : Block) : Block :=
  { b with lines := b.lines.map f }

def hasCode (b : Block) : Bool :=
  b.lines.any Line.hasCode

def countId (id : Text) (b : Block) : Nat :=
  Line.total (Line.countId id) b.lines

/-! ## Roles -/

def isMain (b : Block) : Bool :=
  b.kind == .main

/-- Functions and main; a declaration has no body and is neither. -/
def hasBody (b : Block) : Bool :=
  b.kind == .function || b.kind == .main

/-! ## Sweeping -/

def dropEmptyLines (b : Block) : Block :=
  { b with lines := b.lines.filter fun l => !l.isEmpty }

def dropNonCodeLines (b : Block) : Block :=
  { b with lines := b.lines.filter Line.hasCode }

/-! ## Kernel names -/

/-- The names in the first string that defines the list identifier. -/
def kernelNames? (listId : Text) (b : Block) : Option (List Text) :=
  (b.lines.find? fun l => l.hasOpcode Opcode.string && l.defined? == some listId).map Line.rhsIds

end Block

end SpirvLink
