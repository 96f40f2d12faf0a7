/-
  SpirvLink.Module.Basic — a module is a list of blocks.
-/

import SpirvLink.Function.Basic
import SpirvLink.Log

namespace SpirvLink

structure Module where
  blocks : List Block
deriving DecidableEq

namespace Module

/-! ## Looking into a module -/

/-- Every line, in block order. -/
def lines (m : Module) : List Line :=
  m.blocks.flatMap Block.lines

def lineCount (m : Module) : Nat :=
  m.lines.length

def header? (m : Module) : Option Block :=
  m.blocks.find? fun b => b.kind == .header

/-- The first main function. -/
def main? (m : Module) : Option Function :=
  (m.blocks.find? Block.isMain).map fun b => ⟨b.lines⟩

/-- The functions with a body, main among them. -/
def functions (m : Module) : List Function :=
  m.blocks.filterMap Block.function?

/-- The events that show a module. -/
def shown (m : Module) : List Event :=
  m.blocks.flatMap Block.shown

/-! ## Changing lines -/

def mapBlocks (f : Block → Block) (m : Module) : Module :=
  ⟨m.blocks.map f⟩

def mapLines (f : Line → Line) (m : Module) : Module :=
  m.mapBlocks (Block.mapLines f)

/-- Gives the first main function other lines. -/
def setMain (lines : List Line) (m : Module) : Module :=
  ⟨go m.blocks⟩
where
  go : List Block → List Block
    | [] => []
    | b :: bs => if b.isMain then { b with lines := lines } :: bs else b :: go bs

/-! ## Order and sweeping -/

/-- The blocks by kind, in module order; blocks of one kind keep their order. -/
def sorted (m : Module) : Module :=
  ⟨BlockKind.all.flatMap fun k => m.blocks.filter fun b => b.kind == k⟩

def dropBlocks (p : Block → Bool) (m : Module) : Module :=
  ⟨m.blocks.filter fun b => !p b⟩

def dropEmptyBlocks (m : Module) : Module :=
  m.dropBlocks fun b => b.lines.isEmpty

/-- Drops empty lines and comments, and then the blocks left without lines. The header
    keeps its comments. -/
def swept (m : Module) : Module :=
  (m.mapBlocks fun b => if b.kind == .header then b.dropEmptyLines else b.dropNonCodeLines).dropEmptyBlocks

end Module

end SpirvLink
