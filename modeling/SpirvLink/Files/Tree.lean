/-
  SpirvLink.Files.Tree — a tree of files, and what reading and creating do to it.

  A path is followed from the working directory, or from the root if it is absolute. A file
  holds a text, or bytes that are not the UTF-8 form of any text. Reading changes nothing;
  creating puts a file in an existing directory, or gives an existing file a new text.
-/

import SpirvLink.Files.Path
import SpirvLink.Error

namespace SpirvLink

inductive FileNode where
  | file (content : Option Text)
  | directory
deriving DecidableEq

/-- The files and directories below the root, each with the names that lead to it. -/
structure FileTree where
  workingDirectory : List Text
  nodes : List (List Text × FileNode)

namespace FileTree

def node? (t : FileTree) (place : List Text) : Option FileNode :=
  if place.isEmpty then some .directory else t.nodes.lookup place

/-- Adds a node, in place of what was there. -/
def put (t : FileTree) (place : List Text) (n : FileNode) : FileTree :=
  { t with nodes := (place, n) :: t.nodes.filter fun e => e.1 != place }

/-- The directory that the names lead to from a directory. The root is above itself. -/
def enter (t : FileTree) : List Text → List Text → Except FileFault (List Text)
  | place, [] => .ok place
  | place, n :: ns =>
    if n = Path.here then t.enter place ns
    else if n = Path.above then t.enter place.dropLast ns
    else
      match t.node? (place ++ [n]) with
      | none => .error .notFound
      | some (.file _) => .error .notADirectory
      | some .directory => t.enter (place ++ [n]) ns

/-- Where a path starts. -/
def origin (t : FileTree) (p : Path) : List Text :=
  if p.absolute then [] else t.workingDirectory

/-- The place that a path leads to; none if its last name can only be a directory. The empty
    path leads nowhere. -/
def locate (t : FileTree) (p : Path) : Except FileFault (Option (List Text)) :=
  match p.names.getLast? with
  | none => if p.absolute then .ok none else .error .notFound
  | some last => do
    let directory ← t.enter (t.origin p) p.names.dropLast
    if last = Path.here ∨ last = Path.above then return none
    return some (directory ++ [last])

def read (t : FileTree) (path : Text) : Except FileFault Text := do
  let p := Path.ofText path
  match ← t.locate p with
  | none => throw .isADirectory
  | some place =>
    match t.node? place with
    | none => throw .notFound
    | some .directory => throw .isADirectory
    | some (.file content) =>
      if p.endsInSlash then throw .notADirectory
      match content with
      | some text => return text
      | none => throw .notUtf8

/-- Creates a file with a text, or gives the text to the file that is there. -/
def create (t : FileTree) (path text : Text) : Except FileFault FileTree := do
  let p := Path.ofText path
  match ← t.locate p with
  | none => throw .isADirectory
  | some place =>
    if p.endsInSlash then throw .isADirectory
    match t.node? place with
    | some .directory => throw .isADirectory
    | _ => return t.put place (.file (some text))

end FileTree

end SpirvLink
