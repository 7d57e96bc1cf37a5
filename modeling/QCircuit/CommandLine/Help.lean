import QCircuit.CommandLine.Arguments

/-!
The pages of help, and what the program says of itself.
-/

namespace QCircuit.CommandLine

def Key.description : Key → String
  | .verbose => "Increase verbosity (-v, -vv, -vvv)"
  | .help => "Print help"
  | .about => "Print version"
  | .input => "Input graph document (JSON)"
  | .output => "Output file (stdout if omitted)"
  | .shots => "Number of shots [default: 1024]"
  | .retained => "Qubit positions kept in result keys (all if omitted)"
  | .parallel => "Simulate independent components concurrently"
  | .printCircuit => "Log the compiled circuit"
  | .format => "Output format (table, json) [default: table]"

/-- An option as a page shows it; one that counts is followed by dots. -/
def Key.label (k : Key) : String :=
  (match k.letter? with
    | some c => String.ofList ['-', c, ',', ' ']
    | none => "    ") ++
  "--" ++ k.name ++
  (if k.isValued then " <" ++ k.name.map Char.toUpper ++ ">" else "") ++
  (if k = .verbose then "..." else "")

/-- Labels and descriptions in two columns. -/
def columns (rows : List (String × String)) : List String :=
  let width := (rows.map (·.1.length)).foldl max 0
  rows.map fun (label, description) =>
    "  " ++ label ++ String.ofList (List.replicate (width - label.length + 2) ' ') ++ description

def Level.optionLines (l : Level) : List String :=
  "Options:" :: columns (l.keys.map fun k => (k.label, k.description))

def Level.description : Level → String
  | .program => "Spindle command-line interface"
  | .compile => "Compile a circuit graph into scheduled circuits"
  | .run => "Compile and simulate a circuit graph"
  | .version => "Show version information"

def helpDescription : String := "Print this message or the help of the given subcommand(s)"

def commandLines : List String :=
  "Commands:" :: columns [
    ("compile", Level.compile.description),
    ("run", Level.run.description),
    ("version", Level.version.description),
    ("help", helpDescription)]

def Page.usage : Page → String
  | .level .program => "Usage: spindle [OPTIONS] <COMMAND>"
  | .level .compile => "Usage: spindle compile [OPTIONS] --input <INPUT>"
  | .level .run => "Usage: spindle run [OPTIONS] --input <INPUT>"
  | .level .version => "Usage: spindle version [OPTIONS]"
  | .help => "Usage: spindle help [COMMAND]..."

def Page.lines (p : Page) : List String :=
  match p with
  | .level l =>
    [l.description, "", p.usage, ""] ++
      (if l = .program then commandLines ++ [""] else []) ++ l.optionLines
  | .help =>
    [helpDescription, "", p.usage, "", "Arguments:"] ++
      columns [("[COMMAND]...", "Print help for the subcommand(s)")]

def release : String := "0.1.0"

def aboutLine : String := "spindle " ++ release

def versionLines : List String := [
  "Spindle v" ++ release ++ " - circuit-graph compiler and branching simulator",
  "",
  "Components:",
  "  spindle-ir           Circuit graphs, gates and scheduled circuits",
  "  spindle-compile      Decomposition, list scheduling, macro expansion",
  "  spindle-hal          Execution options, results, shot apportionment",
  "  spindle-adapter-sim  Branching statevector simulator",
  "  spindle-cli          Command-line interface",
  "",
  "License:    Apache-2.0"]

end QCircuit.CommandLine
