/-
  SpirvLink.Fusion — one definition for each type and constant.

  The lines are read once in order. A definition whose right-hand side, after the renames
  found so far, was read before is deleted and its identifier renamed to the first one. A
  second reading renames everywhere, since decorations precede what they decorate.
-/

import SpirvLink.Module.Basic

namespace SpirvLink

/-- Identifiers and the identifiers that take their place. -/
abbrev RenameTable := List (Text × Text)

namespace RenameTable

def apply (t : RenameTable) (id : Text) : Text :=
  (t.lookup id).getD id

/-- A later entry for an identifier takes the place of an earlier one. -/
def insert (t : RenameTable) (old new : Text) : RenameTable :=
  (old, new) :: t.filter fun r => r.1 != old

end RenameTable

/-- What the first reading knows: the identifier of each right-hand side, and the renames. -/
structure Fusion where
  known : List (Text × Text)
  renames : RenameTable
  log : List Event

namespace Fusion

def start : Fusion :=
  ⟨[], [], []⟩

/-- The identifier and the right-hand side of a type or constant, blanks evened out. -/
def definition? (l : Line) : Option (Text × Text) :=
  if l.isTypeOrConstant then
    match l.defined?, l.rhs? with
    | some id, some rhs => some (id, Text.unwords (Text.words rhs))
    | _, _ => none
  else none

def readLine (s : Fusion) (l : Line) : Fusion × Line :=
  if l.hasCode then
    let l := l.renameOperands s.renames.apply
    match definition? l with
    | none => (s, l)
    | some (id, key) =>
      match s.known.lookup key with
      | some first =>
        ({ s with renames := s.renames.insert id first, log := s.log ++ [.fusing id first key] },
          Line.blank)
      | none => ({ s with known := (key, id) :: s.known }, l)
  else (s, l)

def readLines : Fusion → List Line → Fusion × List Line
  | s, [] => (s, [])
  | s, l :: ls =>
    let (s, l) := s.readLine l
    let (s, ls) := s.readLines ls
    (s, l :: ls)

def readBlocks : Fusion → List Block → Fusion × List Block
  | s, [] => (s, [])
  | s, b :: bs =>
    let (s, ls) := s.readLines b.lines
    let (s, bs) := s.readBlocks bs
    (s, { b with lines := ls } :: bs)

end Fusion

/-- Fuses equal definitions and counts the identifiers that went. -/
def Module.fuse (m : Module) : Logged (Nat × Module) :=
  let (s, blocks) := Fusion.start.readBlocks m.blocks
  if s.renames.isEmpty then ⟨s.log, .ok (0, ⟨blocks⟩)⟩
  else
    let fused := ((⟨blocks⟩ : Module).mapLines (Line.renameOperands s.renames.apply)).mapBlocks
      Block.dropEmptyLines
    ⟨s.log ++ [.fused s.renames.length], .ok (s.renames.length, fused)⟩

end SpirvLink
