/-
  SpirvLink.Files.Access — reading and creating files, wherever they are.

  A link on files runs in any monad with file access. A tree of files as state is one, so
  what the program does to files can be stated without leaving pure functions.
-/

import SpirvLink.Files.Tree

namespace SpirvLink

class FileAccess (m : Type → Type) where
  /-- The text of the file at a path. -/
  read : Text → m (Except FileFault Text)
  /-- Creates the file at a path, or replaces its text. -/
  create : Text → Text → m (Except FileFault Unit)

instance : FileAccess (StateM FileTree) where
  read path := return (← get).read path
  create path text := do
    match (← get).create path text with
    | .ok t =>
      set t
      return .ok ()
    | .error e => return .error e

end SpirvLink
