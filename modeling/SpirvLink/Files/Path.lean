/-
  SpirvLink.Files.Path — paths as they are written.

  A path is names between slashes. Empty names count for nothing, and a slash at the end
  says that the path is to be a directory.
-/

import SpirvLink.Text.Basic

namespace SpirvLink

/-- The texts between the occurrences of a character. -/
def Text.separated (d : Char) : Text → List Text
  | [] => [[]]
  | c :: s =>
    if c = d then [] :: separated d s
    else
      match separated d s with
      | [] => [[c]]
      | w :: ws => (c :: w) :: ws

structure Path where
  absolute : Bool
  names : List Text
  endsInSlash : Bool
deriving DecidableEq

namespace Path

def ofText (s : Text) : Path :=
  { absolute := s.head? == some '/'
    names := (Text.separated '/' s).filter fun n => !n.isEmpty
    endsInSlash := s.getLast? == some '/' }

/-- The directory itself. -/
def here : Text := ".".toList

/-- The directory above. -/
def above : Text := "..".toList

/-! ## Extensions -/

/-- The part of a text up to the last slash, and the rest. -/
def splitName (s : Text) : Text × Text :=
  let name := (s.reverse.takeWhile (· != '/')).reverse
  (s.take (s.length - name.length), name)

/-- A file name without what follows its last dot. A dot that starts the name does not
    count; the flag tells whether another was found. -/
def splitExtension (name : Text) : Text × Bool :=
  match name.reverse.dropWhile (· != '.') with
  | [] | [_] => (name, false)
  | _ :: stem => (stem.reverse, true)

/-- The path with another extension. A name of two dots and an extension has no stem but a
    dot; what is left of it is the directory above, which has no extension. -/
def withExtension (extension s : Text) : Text :=
  let (directory, name) := splitName s
  let (stem, found) := splitExtension name
  if found && stem == here then directory ++ above
  else directory ++ stem ++ '.' :: extension

end Path

end SpirvLink
