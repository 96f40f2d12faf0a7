/-
  SpirvLink.Inlining.Passes — main without calls.

  A pass puts a copy in the place of every call in main and then makes the renames, the
  newest first; passes follow until main has no call. The call graph is checked first, so
  only a function passed as an argument and called as a parameter can go on for ever. The
  orders of the names in the copies (`KeyOrder`) are taken as they come.
-/

import SpirvLink.CallGraph
import SpirvLink.Inlining.Copy

namespace SpirvLink

/-- The copies made so far, by the name of the callee, so that later ones get fresh names. -/
structure Inliner where
  kernelPrefix : Text
  copied : List Text
deriving DecidableEq

/-- What inlining did, also when it failed: the module is then as the last whole pass left it. -/
structure Inlined where
  inliner : Inliner
  module : Module
  log : List Event
  replaced : Except LinkError Nat

/-- The callee of a copy that was begun. -/
def Event.copied? : Event → Option Text
  | .copying _ callee _ => some callee
  | _ => none

namespace Inliner

def ofPrefix (p : Text) : Inliner :=
  ⟨p, []⟩

/-- The inliner after the copies that a log tells of. -/
def after (i : Inliner) (log : List Event) : Inliner :=
  { i with copied := log.filterMap Event.copied? ++ i.copied }

/-! ## One pass -/

/-- Replaces the calls on the lines, given the copies made before. -/
def expandLines [KeyOrder] (p : Text) (m : Module) : List Text → List Line → Logged Expansion
  | _, [] => return ⟨[], []⟩
  | copied, l :: ls =>
    if l.isCall then do
      let call ← Call.ofLine l
      let f ← Inlining.resolve m call.callee
      let copy := copied.count call.callee + 1
      Logged.tell [.copying l call.callee copy]
      let here ← Inlining.copyBody p f call copy
      let rest ← expandLines p m (call.callee :: copied) ls
      return ⟨here.lines ++ rest.lines, here.renames ++ rest.renames⟩
    else do
      let rest ← expandLines p m copied ls
      return ⟨l :: rest.lines, rest.renames⟩

/-- The lines of main after one pass. -/
def pass [KeyOrder] (i : Inliner) (m : Module) (main : Function) : Logged (List Line) := do
  let e ← expandLines i.kernelPrefix m i.copied main.lines
  return (Rename.applyAll e.renames e.lines).map Line.trim

/-! ## Passes until no call is left -/

/-- Runs passes while main has calls. The first number limits them, the second counts
    those done. -/
def passes [KeyOrder] : Nat → Nat → Inliner → Module → Inlined
  | 0, done, i, m => ⟨i, m, [], .error (.endlessInlining done)⟩
  | fuel + 1, done, i, m =>
    match m.main? with
    | none => ⟨i, m, [], .error .missingMain⟩
    | some main =>
      if main.hasCalls then
        let run := i.pass m main
        match run.result with
        | .error e => ⟨i.after run.log, m, run.log, .error e⟩
        | .ok lines =>
          let next := passes fuel (done + 1) (i.after run.log) (m.setMain lines)
          { next with
            log := run.log ++ .passDone (done + 1) :: next.log
            replaced := next.replaced.map (main.lines.countP Line.isCall + ·) }
      else ⟨i, m, [], .ok 0⟩

/-- More passes than any link makes: where every call names a function, one pass for each
    block is enough. -/
def passLimit (m : Module) : Nat :=
  m.blocks.length + 0x10000000000000000

/-- Replaces every call in main and counts the calls replaced. -/
def inlineMain [KeyOrder] (i : Inliner) (m : Module) : Inlined :=
  match m.checkCallGraph with
  | .error e => ⟨i, m, [], .error e⟩
  | .ok () => passes (passLimit m) 0 i m

end Inliner

end SpirvLink
