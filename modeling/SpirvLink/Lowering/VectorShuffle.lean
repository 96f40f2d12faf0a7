/-
  SpirvLink.Lowering.VectorShuffle — every lane of a vector shuffle is defined.

  A lane that is to stay undefined is written as the greatest 32-bit number; lane 0 takes
  its place.
-/

import SpirvLink.Log

namespace SpirvLink

namespace Line

def undefinedLane : Text := "4294967295".toList

def definedLane (operand : Text) : Text :=
  if operand = undefinedLane then "0".toList else operand

/-- The number of undefined lanes on a line. -/
def countUndefinedLanes (l : Line) : Nat :=
  if l.hasOpcode Opcode.vectorShuffle then l.operands.count undefinedLane else 0

/-- Changes only lines with an undefined lane. -/
def defineLanes (l : Line) : Line :=
  if l.countUndefinedLanes = 0 then l
  else ofParts l.defined? Opcode.vectorShuffle (l.operands.map definedLane)

/-- Defines the lanes on all lines and counts those that were undefined. -/
def defineAllLanes (lines : List Line) : List Line × Logged Nat :=
  let count := total countUndefinedLanes lines
  (lines.map defineLanes, do
    Logged.tell (if count = 0 then [] else [.lanesReplaced count])
    return count)

end Line

end SpirvLink
