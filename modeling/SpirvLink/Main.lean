/-
  SpirvLink.Main — the program on the files of the machine, with the readers of its arguments
  and of configurations.
-/

import SpirvLink.CommandLine.Run

namespace SpirvLink

/-- The fault behind an error of the system. Some calls give its number negated. -/
def FileFault.ofSystem (e : IO.Error) : FileFault :=
  match e with
  | .noFileOrDirectory _ _ _ => .notFound
  | .inappropriateType _ code _ =>
    if code == 20 || 0 - code == 20 then .notADirectory
    else if code == 21 || 0 - code == 21 then .isADirectory
    else .other e.toString.toList
  | _ => .other e.toString.toList

instance : FileAccess IO where
  read path := do
    try
      let bytes ← IO.FS.readBinFile (String.ofList path)
      match String.fromUTF8? bytes with
      | some text => return .ok text.toList
      | none => return .error .notUtf8
    catch e => return .error (.ofSystem e)
  create path text := do
    try
      IO.FS.writeFile (String.ofList path) (String.ofList text)
      return .ok ()
    catch e => return .error (.ofSystem e)

end SpirvLink

open SpirvLink in
def main (arguments : List String) : IO UInt32 := do
  let outcome : CommandLine.Outcome ← CommandLine.run (arguments.map String.toList)
  for e in outcome.log do
    IO.eprintln ("[" ++ e.level.name ++ "] " ++ e.message)
  IO.print outcome.stdout
  IO.eprint outcome.stderr
  return outcome.exitCode.toUInt32
