/-
  SpirvLink.Link.Basic — linking a compute kernel into a wrapper.

  The wrapper's header names the kernel, and the wrapper's main calls a placeholder in its
  place. A link namespaces the kernel module, joins the two modules, puts the kernel's name
  in the placeholder's place, replaces every call in main by the body called, and drops
  what is then not needed. The first failure ends the link; there is no partial module.
-/

import SpirvLink.Module.Parser
import SpirvLink.Module.Printer
import SpirvLink.Options.Basic
import SpirvLink.Link.Splice
import SpirvLink.Reachable
import SpirvLink.Inlining.Passes
import SpirvLink.Lowering.StorageClass
import SpirvLink.Lowering.AccessChain
import SpirvLink.Lowering.VectorShuffle
import SpirvLink.Fusion

namespace SpirvLink

/-- The figures of one link. -/
structure LinkStats where
  kernel : Text
  inlinedCalls : Nat
  fusedDefinitions : Nat
  removedFunctions : Nat
  storageClassMoves : Nat
  accessChainsReplaced : Nat
  lanesDefined : Nat
  blocks : Nat
  lines : Nat
deriving DecidableEq

structure Linked where
  module : Module
  stats : LinkStats
deriving DecidableEq

namespace Link

/-- The name, after prefixing, of the one kernel that the wrapper's header lists. -/
def resolveKernel (o : Options) (wrapper : Module) : Except LinkError Text :=
  match wrapper.header? with
  | none => .error (.missingBlock .wrapper .header)
  | some header =>
    match header.kernelNames? o.kernelListId with
    | none => .error .kernelNamesNotFound
    | some [name] => .ok (o.prefixed name)
    | some names => .error (.unsupportedKernelCount names.length)

/-- The kernel module with its identifiers prefixed. -/
def namespaced (o : Options) (kernel : Module) : Module :=
  kernel.mapLines (Line.prefixIds o.kernelPrefix)

/-- The kernel module as it is joined: prefixed, and in the other storage class. -/
def prepared (o : Options) (kernel : Module) : Module :=
  (namespaced o kernel).moveStorageClass o.storageClassFrom o.storageClassTo

/-- The events that show a module at a moment of the link. -/
def showing (moment : Moment) (m : Module) : List Event :=
  .showing moment :: m.shown

/-- Puts the kernel's name in the place of the placeholder, wherever main has it. -/
def patch (o : Options) (kernelId : Text) (m : Module) : Logged Module := do
  match m.main? with
  | none => Logged.fail .missingMain
  | some main =>
    let count := Line.total (Line.countId o.placeholder) main.lines
    if count = 0 then Logged.fail (.placeholderNotFound o.placeholder)
    Logged.tell (if count = 1 then [] else [.placeholderRepeated o.placeholder count])
    return m.setMain (main.lines.map (Line.replaceId o.placeholder kernelId))

/-- Replaces every call in main and counts the calls. -/
def inlined [KeyOrder] (o : Options) (m : Module) : Logged (Nat × Module) :=
  let run := (Inliner.ofPrefix o.kernelPrefix).inlineMain m
  ⟨run.log, run.replaced.map fun count => (count, run.module)⟩

/-- Applies an edit of the lines to main. -/
def onMain (edit : List Line → List Line × Logged Nat) (m : Module) : Logged (Nat × Module) :=
  match m.main? with
  | none => Logged.fail .missingMain
  | some main => do
    let count ← (edit main.lines).2
    return (count, m.setMain (edit main.lines).1)

end Link

/-- Links a kernel module into a wrapper module. -/
def linkModules [KeyOrder] (o : Options) (kernel wrapper : Module) : Logged Linked := do
  o.validate
  let kernelId ← Link.resolveKernel o wrapper
  Logged.tell [.kernelResolved kernelId]
  let moved := (Link.namespaced o kernel).countStorageClass o.storageClassFrom o.storageClassTo
  let kernel := Link.prepared o kernel
  Logged.tell (.storageClassMoved moved o.storageClassFrom o.storageClassTo ::
    Link.showing .prefixed kernel)
  let m ← splice kernel wrapper
  Logged.tell (Link.showing .spliced m)
  let m ← Link.patch o kernelId m
  let (calls, m) ← Link.inlined o m
  let (chains, m) ← Link.onMain Line.dropElements m
  let (lanes, m) ← Link.onMain Line.defineAllLanes m
  Logged.tell (Link.showing .inlined m)
  let (removed, m) ← m.sorted.removeUnused
  let (fused, m) ← m.fuse
  let m := m.swept
  Logged.tell (Link.showing .finished m)
  return {
    module := m
    stats := {
      kernel := kernelId
      inlinedCalls := calls
      fusedDefinitions := fused
      removedFunctions := removed
      storageClassMoves := moved
      accessChainsReplaced := chains
      lanesDefined := lanes
      blocks := m.blocks.length
      lines := m.lineCount } }

/-- Links a kernel text into a wrapper text; the kernel is read first. -/
def linkSources [KeyOrder] (o : Options) (kernel wrapper : Text) : Logged Linked := do
  let kernel ← Module.read kernel
  let wrapper ← Module.read wrapper
  linkModules o kernel wrapper

/-- Links under the standard options and prints the result. -/
def link [KeyOrder] (kernel wrapper : Text) : Except LinkError Text := do
  let linked ← (linkSources .standard kernel wrapper).result
  return linked.module.toText Options.standard.annotate

end SpirvLink
