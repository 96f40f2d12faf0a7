/-
  SpirvLink.CommandLine.Run — a run of the program, from its arguments to its exit code.

  Exit code 0 is a link, or an answer to a question; 1 a link that failed; 2 arguments that
  make no sense. Only a link that succeeds touches a file, and only its output. How the
  arguments and a configuration are read is left open (`ArgumentReader`, `OptionsReader`).
-/

import SpirvLink.CommandLine.Request
import SpirvLink.CommandLine.Report
import SpirvLink.Link.Files
import SpirvLink.Options.Json

namespace SpirvLink.CommandLine

/-- What a run leaves for its caller, files apart. -/
structure Outcome where
  exitCode : Nat
  stdout : String
  stderr : String
  log : List Event

variable {m : Type → Type} [Monad m] [FileAccess m]

/-- The file to write when none is named: the wrapper with another extension. -/
def Arguments.outputPath (a : Arguments) : Text :=
  a.output.getD (Path.withExtension "linked.spt".toList a.wrapper)

/-- The options of a configuration with what the arguments override. -/
def Arguments.override (a : Arguments) (o : Options) : Options :=
  { o with
    kernelPrefix := a.namePrefix.getD o.kernelPrefix
    annotate := o.annotate && !a.noAnnotate }

/-- Why a run failed: the error, and what was being tried. -/
structure Failure where
  context : String
  error : LinkError

def Failure.message (f : Failure) : String :=
  "Linking failed: " ++ f.context ++ errorChain f.error ++ "\n"

/-- The options that the arguments start from: those of a configuration, or the standard ones. -/
def configured [OptionsReader] (a : Arguments) : m (Except Failure Options) :=
  match a.config with
  | none => return .ok Options.standard
  | some path => do
    let context := "Failed to load config " ++ String.ofList path ++ ": "
    return (← Options.load path).mapError (Failure.mk context)

/-- The options of the run, checked after the arguments have their say. -/
def loadOptions [OptionsReader] (a : Arguments) : m (Except Failure Options) := do
  let loaded ← configured a
  return loaded.bind fun o =>
    ((a.override o).validate.mapError (Failure.mk "")).map fun _ => a.override o

def failed (log : List Event) (f : Failure) : Outcome :=
  ⟨1, "", f.message, log⟩

def succeeded (a : Arguments) (log : List Event) (s : LinkStats) : Outcome :=
  ⟨0, s.summary a.outputPath ++ "\n" ++ (if a.stats then s.toJson ++ "\n" else ""), "", log⟩

def runLink [OptionsReader] [KeyOrder] (a : Arguments) : m Outcome := do
  match ← loadOptions a with
  | .error f => return failed [] f
  | .ok o => do
    let run ← linkFiles o a.kernel a.wrapper a.outputPath
    let log := if a.verbose then run.log.filter (fun e => e.level != .trace) else []
    match run.result with
    | .error e => return failed log ⟨"", e⟩
    | .ok stats => return succeeded a log stats

def run [ArgumentReader] [OptionsReader] [KeyOrder] (arguments : List Text) : m Outcome :=
  match ArgumentReader.request arguments with
  | .help => return ⟨0, helpText, "", []⟩
  | .version => return ⟨0, versionText, "", []⟩
  | .misuse => return ⟨2, "", usageLine, []⟩
  | .link a => runLink a

/-! ## What the program runs with -/

instance : ArgumentReader where
  request := Request.ofArguments

instance : OptionsReader where
  read? := Options.parse?

instance : KeyOrder :=
  .listed

end SpirvLink.CommandLine
