/-
  SpirvLink.Link.Files — a link from files to a file.

  The output file is created last, when there is a module to write. A failure before that
  leaves all files as they were. How options are read from a text is left open
  (`OptionsReader`).
-/

import SpirvLink.Link.Basic
import SpirvLink.Files.Access

namespace SpirvLink

variable {m : Type → Type} [Monad m] [FileAccess m]

def readFile (path : Text) : m (Except LinkError Text) := do
  return (← FileAccess.read path).mapError (.file path)

def createFile (path text : Text) : m (Except LinkError Unit) := do
  return (← FileAccess.create path text).mapError (.file path)

/-- The options in a file, which have to be valid. -/
def Options.ofText [OptionsReader] (path content : Text) : Except LinkError Options :=
  match OptionsReader.read? content with
  | none => .error (.config (.unreadable path))
  | some o => do
    o.validate
    return o

def Options.load [OptionsReader] (path : Text) : m (Except LinkError Options) := do
  return (← readFile path).bind (Options.ofText path)

/-- Continues a logged step if it succeeded. -/
def Logged.andThen (x : Logged α) (f : α → m (Logged β)) : m (Logged β) :=
  match x.result with
  | .error e => return ⟨x.log, .error e⟩
  | .ok a => do
    let y ← f a
    return ⟨x.log ++ y.log, y.result⟩

/-- Reads a kernel and a wrapper and writes the linked module. -/
def linkFiles [KeyOrder] (o : Options) (kernel wrapper output : Text) : m (Logged LinkStats) := do
  let kernelText ← readFile kernel
  (Logged.ofExcept kernelText >>= Module.read).andThen fun kernelModule => do
    let wrapperText ← readFile wrapper
    (Logged.ofExcept wrapperText >>= Module.read).andThen fun wrapperModule =>
      (linkModules o kernelModule wrapperModule).andThen fun linked => do
        let written ← createFile output (linked.module.toText o.annotate)
        return Logged.ofExcept (written.map fun _ => linked.stats)

end SpirvLink
