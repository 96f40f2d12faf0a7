/-
  SpirvLink.CallGraph — no function may call itself, directly or through others.

  The nodes are the functions with a body, in module order; an edge leads from a function
  to each function it calls, and a call to a declaration or to an unknown name is no edge.
  Of several functions with one name the last is the one that a call reaches. The search
  goes depth first from each node in order and reports the first cycle it closes.
-/

import SpirvLink.Module.Basic

namespace SpirvLink

/-- A function in the call graph. The index tells functions of one name apart. -/
structure CallNode where
  index : Nat
  name : Text
  callees : List Text
deriving DecidableEq

abbrev CallGraph := List CallNode

namespace CallGraph

/-- Reads each function's name and then its calls; the first that fails is reported. -/
def ofModule (m : Module) : Except LinkError CallGraph :=
  m.functions.zipIdx.mapM fun (f, i) => return ⟨i, ← f.name, ← f.callees⟩

/-- The function that a call of this name reaches. -/
def target? (g : CallGraph) (callee : Text) : Option CallNode :=
  g.reverse.find? fun n => n.name == callee

/-- The cycle closed by a call from the top of the path to a node on it. The path has its
    newest node first. -/
def chain (path : List CallNode) (target : CallNode) (callee : Text) : List Text :=
  ((path.reverse.dropWhile fun n => n != target).map CallNode.name) ++ [callee]

/-- Searches everything that a node reaches. `path` holds the nodes being searched, newest
    first, and `finished` those that reach no cycle; the answer adds to the latter. A path
    holds each node once, so the number of nodes is fuel enough. -/
def visit (g : CallGraph) :
    Nat → List CallNode → List CallNode → CallNode → Except LinkError (List CallNode)
  | 0, _, finished, _ => .ok finished
  | fuel + 1, path, finished, n => do
    let finished ← n.callees.foldlM (fun finished callee =>
      match target? g callee with
      | none => .ok finished
      | some t =>
        if (n :: path).contains t then .error (.recursiveCallChain (chain (n :: path) t callee))
        else if finished.contains t then .ok finished
        else visit g fuel (n :: path) finished t) finished
    return n :: finished

/-- Searches from every node that no earlier search has finished. -/
def visitAll (g : CallGraph) : List CallNode → List CallNode → Except LinkError (List CallNode)
  | finished, [] => .ok finished
  | finished, n :: ns => do
    if finished.contains n then visitAll g finished ns
    else visitAll g (← visit g g.length [] finished n) ns

end CallGraph

/-- Fails on the first recursive chain of calls. -/
def Module.checkCallGraph (m : Module) : Except LinkError Unit := do
  let g ← CallGraph.ofModule m
  discard (CallGraph.visitAll g [] g)

end SpirvLink
