/-
  SpirvLink.CommandLine.Request — what the arguments of the program ask for.

  Arguments are read from left to right. A value follows its option as the next argument,
  behind an equals sign, or directly behind a short option; a value of its own must not
  look like an option. An option is given once. Asking for help or the version ends the
  reading, so only a mistake before it counts.
-/

import SpirvLink.Text.Basic

namespace SpirvLink.CommandLine

/-- An option with a value. -/
inductive Setting where
  | kernel
  | wrapper
  | output
  | config
  | namePrefix
deriving DecidableEq

/-- An option without a value. -/
inductive Switch where
  | stats
  | noAnnotate
  | verbose
deriving DecidableEq

/-- What the name of an option stands for. -/
inductive Meaning where
  | setting (s : Setting)
  | switch (s : Switch)
  | help
  | version

structure Arguments where
  kernel : Text
  wrapper : Text
  output : Option Text
  config : Option Text
  namePrefix : Option Text
  stats : Bool
  noAnnotate : Bool
  verbose : Bool
deriving DecidableEq

inductive Request where
  | link (a : Arguments)
  | help
  | version
  | misuse
deriving DecidableEq

/-- What reads a request from the arguments of the program. -/
class ArgumentReader where
  request : List Text → Request

/-! ## Names of options -/

def long? (name : Text) : Option Meaning :=
  if name = "kernel".toList then some (.setting .kernel)
  else if name = "wrapper".toList then some (.setting .wrapper)
  else if name = "output".toList then some (.setting .output)
  else if name = "config".toList then some (.setting .config)
  else if name = "prefix".toList then some (.setting .namePrefix)
  else if name = "stats".toList then some (.switch .stats)
  else if name = "no-annotate".toList then some (.switch .noAnnotate)
  else if name = "verbose".toList then some (.switch .verbose)
  else if name = "help".toList then some .help
  else if name = "version".toList then some .version
  else none

def short? : Char → Option Meaning
  | 'k' => some (.setting .kernel)
  | 'w' => some (.setting .wrapper)
  | 'o' => some (.setting .output)
  | 'v' => some (.switch .verbose)
  | 'h' => some .help
  | 'V' => some .version
  | _ => none

/-! ## What was given -/

structure Given where
  values : List (Setting × Text)
  switches : List Switch

namespace Given

def nothing : Given :=
  ⟨[], []⟩

def value? (g : Given) (s : Setting) : Option Text :=
  g.values.lookup s

/-- Refuses a second value, and an empty one for anything but the prefix. -/
def set? (g : Given) (s : Setting) (v : Text) : Option Given :=
  if (g.value? s).isSome || (v.isEmpty && s != .namePrefix) then none
  else some { g with values := (s, v) :: g.values }

def switch? (g : Given) (s : Switch) : Option Given :=
  if g.switches.contains s then none else some { g with switches := s :: g.switches }

/-- A link needs a kernel and a wrapper. -/
def request (g : Given) : Request :=
  match g.value? .kernel, g.value? .wrapper with
  | some kernel, some wrapper =>
    .link {
      kernel := kernel
      wrapper := wrapper
      output := g.value? .output
      config := g.value? .config
      namePrefix := g.value? .namePrefix
      stats := g.switches.contains .stats
      noAnnotate := g.switches.contains .noAnnotate
      verbose := g.switches.contains .verbose }
  | _, _ => .misuse

end Given

/-! ## Reading arguments -/

/-- Where the reading stands after one argument. -/
inductive Progress where
  | ready (g : Given)
  | awaiting (g : Given) (s : Setting)
  | done (r : Request)

def Progress.ofGiven? : Option Given → Progress
  | some g => ready g
  | none => done .misuse

/-- Reads an argument of two dashes, a name and perhaps a value. -/
def readLong (g : Given) (body : Text) : Progress :=
  let (name, value) := match Text.cutAt '=' body with
    | some (name, value) => (name, some value)
    | none => (body, none)
  match long? name, value with
  | some (.setting s), some v => .ofGiven? (g.set? s v)
  | some (.setting s), none => .awaiting g s
  | some (.switch s), none => .ofGiven? (g.switch? s)
  | some .help, none => .done .help
  | some .version, none => .done .version
  | _, _ => .done .misuse

/-- Drops one equals sign before a value. -/
def attachedValue (s : Text) : Text :=
  match s with
  | '=' :: v => v
  | _ => s

/-- Reads the letters behind one dash. The letter of a setting takes the rest as its value. -/
def readShort (g : Given) : Text → Progress
  | [] => .ready g
  | c :: rest =>
    match short? c with
    | some (.setting s) =>
      if rest.isEmpty then .awaiting g s else .ofGiven? (g.set? s (attachedValue rest))
    | some (.switch s) =>
      match g.switch? s with
      | some g => readShort g rest
      | none => .done .misuse
    | some .help => .done .help
    | some .version => .done .version
    | none => .done .misuse

def looksLikeOption : Text → Bool
  | '-' :: _ :: _ => true
  | _ => false

/-- Reads arguments when the one before may await its value. -/
def readArguments : Given → Option Setting → List Text → Request
  | g, none, [] => g.request
  | _, some _, [] => .misuse
  | g, some s, a :: as =>
    if looksLikeOption a then .misuse
    else
      match g.set? s a with
      | some g => readArguments g none as
      | none => .misuse
  | g, none, a :: as =>
    if a = "--".toList then
      if as.isEmpty then g.request else .misuse
    else
      let progress := match a with
        | '-' :: '-' :: body => readLong g body
        | '-' :: c :: rest => readShort g (c :: rest)
        | _ => .done .misuse
      match progress with
      | .ready g => readArguments g none as
      | .awaiting g s => readArguments g (some s) as
      | .done r => r

def Request.ofArguments (arguments : List Text) : Request :=
  readArguments .nothing none arguments

end SpirvLink.CommandLine
