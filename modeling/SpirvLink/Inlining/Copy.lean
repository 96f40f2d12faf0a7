/-
  SpirvLink.Inlining.Copy — what a call in main becomes.

  A call becomes the body of its callee. The first copy of a body keeps its names; in the
  second and later copies every parameter and every identifier that the body defines gets
  the copy's number behind its name. A hash map holds the new names, and the lines of the
  copy are changed name by name in the order in which the map gives its keys (`KeyOrder`).
  Each parameter is to be renamed to its argument, and the result of the call to the value
  returned, both by the names that the map has for them; a renaming of a name to itself is
  left out.
-/

import SpirvLink.Module.Basic

namespace SpirvLink

structure Rename where
  old : Text
  new : Text
deriving DecidableEq

namespace Rename

def event (r : Rename) : Event :=
  .renamed r.old r.new

/-- Renames to be made one by one, those that change nothing left out. -/
def effective (rs : List Rename) : List Rename :=
  rs.filter fun r => r.old != r.new

/-- Makes the renames over all lines, the last one first. -/
def applyAll (rs : List Rename) (lines : List Line) : List Line :=
  rs.foldr (fun r ls => ls.map (Line.replaceId r.old r.new)) lines

end Rename

/-- Lines that stand in for others, and the renames that connect them to the rest of main. -/
structure Expansion where
  lines : List Line
  renames : List Rename
deriving DecidableEq

namespace Inlining

/-! ## Names in a copy -/

def copySuffix (copy : Nat) : Text :=
  "_inl".toList ++ Nat.toDigits 10 copy

/-- The name that the map of a copy has for an identifier; one that is no key stays. -/
def nameInCopy (copy : Nat) (owned : List Text) (id : Text) : Text :=
  if 1 < copy ∧ id ∈ owned then id ++ copySuffix copy else id

/-- The changes of names that a copy makes, in this order. -/
def freshRenames (copy : Nat) (order : List Text) : List Rename :=
  order.map fun id => ⟨id, id ++ copySuffix copy⟩

end Inlining

/-- The keys of the map of new names for a copy, which are the names that the function owns,
    each once; the list starts with the key that comes last. A hash map promises no order, so
    it can be any, and it can differ from one copy to the next and from run to run. -/
class KeyOrder where
  keys (f : Function) (copy : Nat) (owned : List Text) : List Text
  nodup (f : Function) (copy : Nat) (owned : List Text) : (keys f copy owned).Nodup
  mem_keys {f : Function} {copy : Nat} {owned : List Text} {id : Text} : id ∈ keys f copy owned ↔ id ∈ owned

theorem nodup_eraseDups (names : List Text) : names.eraseDups.Nodup := by
  cases names with
  | nil => exact .nil
  | cons id names =>
    rw [List.eraseDups_cons, List.nodup_cons, List.mem_eraseDups]
    exact ⟨by simp, nodup_eraseDups (names.filter fun other => !other == id)⟩
termination_by names.length
decreasing_by
  exact Nat.lt_succ_of_le (List.length_filter_le ..)

/-- The key that is put in last comes first. -/
@[reducible]
def KeyOrder.listed : KeyOrder where
  keys _ _ owned := owned.eraseDups
  nodup _ _ owned := nodup_eraseDups owned
  mem_keys := List.mem_eraseDups

namespace Inlining

/-- The names that a copy changes, in the order of its map; the first copy changes none. -/
def changedNames [KeyOrder] (f : Function) (copy : Nat) (owned : List Text) : List Text :=
  if 1 < copy then KeyOrder.keys f copy owned else []

/-! ## One call -/

/-- The plain function that a call names, which has to be the only one. -/
def resolve (m : Module) (callee : Text) : Except LinkError Function :=
  match m.blocks.filter fun b => b.kind == .function && b.isFunctionNamed callee with
  | [b] => .ok ⟨b.lines⟩
  | bs => .error (.unresolvedCallee callee bs.length)

/-- The rename of a call's result to the value returned. Only a void function returns none. -/
def resultRenames (p : Text) (f : Function) (name : Text) (call : Call) (rename : Text → Text) :
    Except LinkError (List Rename) :=
  match f.returnValue? with
  | some value => .ok (Rename.effective [⟨call.result, rename value⟩])
  | none => do
    if ← f.returnsVoid p then return []
    throw (.missingReturnValue name)

/-- The copy of a function's body for one call. -/
def copyBody [KeyOrder] (p : Text) (f : Function) (call : Call) (copy : Nat) : Logged Expansion := do
  let name ← f.name
  let parameters ← f.parameters
  if parameters.length ≠ call.arguments.length then
    Logged.fail (.arityMismatch name call.arguments.length parameters.length)
  let body ← f.body
  let owned := parameters ++ body.filterMap Line.defined?
  let lines := Rename.applyAll (freshRenames copy (changedNames f copy owned)) body
  let rename := nameInCopy copy owned
  let passed := Rename.effective ((parameters.map rename).zipWith Rename.mk call.arguments)
  Logged.tell (passed.map Rename.event)
  let returned ← resultRenames p f name call rename
  Logged.tell (returned.map Rename.event)
  return ⟨lines, passed ++ returned⟩

end Inlining

end SpirvLink
