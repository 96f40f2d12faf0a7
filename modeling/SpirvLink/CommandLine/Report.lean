/-
  SpirvLink.CommandLine.Report — the texts that the program prints.
-/

import SpirvLink.Link.Basic
import SpirvLink.Json.Quoted

namespace SpirvLink

/-- The figures with the names that they have in a report, in order. -/
def LinkStats.fields (s : LinkStats) : List (String × Text) :=
  [("kernel", Json.quote s.kernel),
    ("inlined_calls", Nat.toDigits 10 s.inlinedCalls),
    ("fused_definitions", Nat.toDigits 10 s.fusedDefinitions),
    ("removed_functions", Nat.toDigits 10 s.removedFunctions),
    ("storage_class_rewrites", Nat.toDigits 10 s.storageClassMoves),
    ("access_chain_rewrites", Nat.toDigits 10 s.accessChainsReplaced),
    ("shuffle_lane_rewrites", Nat.toDigits 10 s.lanesDefined),
    ("blocks", Nat.toDigits 10 s.blocks),
    ("lines", Nat.toDigits 10 s.lines)]

/-- The figures as a JSON object, one member a line, indented by two spaces. -/
def LinkStats.toJson (s : LinkStats) : String :=
  let members := s.fields.map fun (name, value) => "  \"" ++ name ++ "\": " ++ String.ofList value
  "\x7b\n" ++ ",\n".intercalate members ++ "\n\x7d"

/-- What is said of a successful link. -/
def LinkStats.summary (s : LinkStats) (output : Text) : String :=
  "Linked " ++ String.ofList s.kernel ++ " into " ++ String.ofList output ++ ": " ++
    toString s.inlinedCalls ++ " call(s) inlined, " ++ toString s.fusedDefinitions ++
    " definition(s) fused, " ++ toString s.lines ++ " lines"

namespace CommandLine

/-- An error with the errors behind it. A failure on a file repeats the reason. -/
def errorChain : LinkError → String
  | .file path fault => (LinkError.file path fault).message ++ ": " ++ fault.message
  | e => e.message

def programName : String := "rsov-link"

def versionText : String := programName ++ " 0.1.0\n"

def usageLine : String :=
  "Usage: " ++ programName ++ " [OPTIONS] --kernel <KERNEL> --wrapper <WRAPPER>\n"

def helpText : String :=
  "Links a compute kernel module into a SPIR-V wrapper module\n\n" ++ usageLine ++ "\nOptions:\n" ++
  "  -k, --kernel <KERNEL>    Kernel module (SPIR-V text)\n" ++
  "  -w, --wrapper <WRAPPER>  Wrapper module (SPIR-V text)\n" ++
  "  -o, --output <OUTPUT>    Output file (defaults to <wrapper>.linked.spt)\n" ++
  "      --config <FILE>      JSON file with linker options\n" ++
  "      --prefix <PREFIX>    Override the prefix given to kernel identifiers\n" ++
  "      --stats              Print link statistics as JSON\n" ++
  "      --no-annotate        Omit block banners and indentation in the output\n" ++
  "  -v, --verbose            Verbose output\n" ++
  "  -h, --help               Print help\n" ++
  "  -V, --version            Print version\n"

end CommandLine

end SpirvLink
