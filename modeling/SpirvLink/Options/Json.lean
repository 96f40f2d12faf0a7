/-
  SpirvLink.Options.Json — options as a JSON text.

  The options are an object with a member for each option, or an array with the options in
  order. Those that are missing have their standard values. Members of other names are
  passed over; an option given twice, a value of the wrong type and an item too many are
  refused.
-/

import SpirvLink.Options.Basic
import SpirvLink.Json.Parser

namespace SpirvLink.Options

/-- The names of the options, in order. -/
def fieldNames : List Text :=
  ["kernel_prefix".toList, "kernel_list_id".toList, "placeholder_callee".toList,
    "storage_class_from".toList, "storage_class_to".toList, "annotate_blocks".toList]

/-- The values given for each option, in order. -/
def givenValues : Json → Option (List (List Json))
  | .object members => do
    if members.any fun m => m.1.isNone then none
    return fieldNames.map fun name => (members.filter fun m => m.1 == some name).map Prod.snd
  | .array items =>
    if items.length ≤ fieldNames.length then
      some (items.map (fun v => [v]) ++ (fieldNames.drop items.length).map fun _ => [])
    else none
  | _ => none

/-- The one value given, or else the standard one. -/
def choose (standard : α) (decode : Json → Option α) : List Json → Option α
  | [] => some standard
  | [v] => decode v
  | _ => none

def ofJson? (j : Json) : Option Options := do
  match ← givenValues j with
  | [kernelPrefix, kernelListId, placeholder, classFrom, classTo, annotate] =>
    return {
      kernelPrefix := ← choose standard.kernelPrefix Json.asText? kernelPrefix
      kernelListId := ← choose standard.kernelListId Json.asText? kernelListId
      placeholder := ← choose standard.placeholder Json.asText? placeholder
      storageClassFrom := ← choose standard.storageClassFrom Json.asText? classFrom
      storageClassTo := ← choose standard.storageClassTo Json.asText? classTo
      annotate := ← choose standard.annotate Json.asBool? annotate }
  | _ => none

def parse? (s : Text) : Option Options :=
  (Json.parse s).bind ofJson?

end SpirvLink.Options
