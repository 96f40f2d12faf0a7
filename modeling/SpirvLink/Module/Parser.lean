/-
  SpirvLink.Module.Parser — the blocks of a module, found in its text.

  The lines up to the first decoration, definition or function are the header; those up to
  the first definition or function are the decorations; those up to the first function are
  definitions and variables, told apart line by line. From there on the lines with code
  are runs that end at `OpFunctionEnd`, and each run is a function.
-/

import SpirvLink.Module.Basic

namespace SpirvLink

/-! ## Where a region ends -/

def Line.startsFunction (l : Line) : Bool :=
  l.hasOpcode Opcode.function

def Line.endsDecorations (l : Line) : Bool :=
  l.isTypeOrConstant || l.startsFunction

def Line.endsHeader (l : Line) : Bool :=
  l.isDecoration || l.endsDecorations

namespace Module

/-- The name that makes a function the main function. -/
def mainName : Text := "%main".toList

/-! ## The regions before the functions -/

def headerOf (lines : List Line) : Block :=
  .ofLines .header ((lines.takeWhile fun l => !l.endsHeader).filter fun l => !l.isEmpty)

def decorationsOf (lines : List Line) : Block :=
  .ofLines .decorations (((lines.dropWhile fun l => !l.endsHeader).takeWhile fun l =>
    !l.endsDecorations).filter Line.hasCode)

/-- The lines with code between the decorations and the first function. -/
def globalLines (lines : List Line) : List Line :=
  (((lines.dropWhile fun l => !l.endsHeader).dropWhile fun l => !l.endsDecorations).takeWhile fun l =>
    !l.startsFunction).filter Line.hasCode

/-- The lines with code from the first function on. -/
def functionLines (lines : List Line) : List Line :=
  (lines.dropWhile fun l => !l.startsFunction).filter Line.hasCode

/-- The blocks before the functions. Variables have a block only if there are any. -/
def globalsOf (lines : List Line) : List Block :=
  let others := (globalLines lines).filter fun l => !l.isTypeOrConstant
  [headerOf lines, decorationsOf lines,
    .ofLines .definitions ((globalLines lines).filter Line.isTypeOrConstant)] ++
    if others.isEmpty then [] else [.ofLines .globalVariables others]

/-! ## Functions -/

/-- The runs that end at `OpFunctionEnd`, and the lines after the last of them. -/
def runs : List Line → List (List Line) × List Line
  | [] => ([], [])
  | l :: ls =>
    let (rs, rest) := runs ls
    if l.hasOpcode Opcode.functionEnd then ([l] :: rs, rest)
    else
      match rs with
      | [] => ([], l :: rest)
      | r :: rs => ((l :: r) :: rs, rest)

/-- The name of the function that a run of lines starts with. -/
def runName (run : List Line) : Except LinkError Text :=
  match run with
  | [] => .error (.malformedFunction [] .notAFunction)
  | first :: _ =>
    match first.defined? with
    | some id => if first.startsFunction then .ok id else .error (.malformedFunction first.text .notAFunction)
    | none => .error (.malformedFunction first.text .notAFunction)

/-- A function is main by its name, and a declaration if it never returns. -/
def runKind (name : Text) (run : List Line) : BlockKind :=
  if name == mainName then .main
  else if run.tail.any Line.isReturn then .function
  else .declaration

def readRun (run : List Line) : Logged Block := do
  let name ← runName run
  Logged.tell [.blockRead (runKind name run) name]
  return .ofLines (runKind name run) run

/-- Refuses lines after the last `OpFunctionEnd`. -/
def readRest (rest : List Line) : Except LinkError Unit :=
  match rest with
  | [] => .ok ()
  | _ :: _ => do
    let name ← runName rest
    throw (.malformedFunction name .noEnd)

def readFunctions (lines : List Line) : Logged (List Block) := do
  let (complete, rest) := runs lines
  let blocks ← complete.mapM readRun
  readRest rest
  return blocks

/-! ## Reading -/

/-- Reads a module and tells each function read. -/
def read (source : Text) : Logged Module := do
  let lines := (Text.splitLines source).map Line.mk
  return ⟨globalsOf lines ++ (← readFunctions (functionLines lines))⟩

def parse (source : Text) : Except LinkError Module :=
  (read source).result

end Module

end SpirvLink
