import QCircuit.CommandLine.Help
import QCircuit.Document
import QCircuit.Execution
import QCircuit.Report
import QCircuit.Session
import QCircuit.Text.LowerCase

/-!
The sessions of the commands.
-/

namespace QCircuit.CommandLine

open Json (Value)

/-- Goes on with the graph of the document at a path. -/
def load (path : String) (next : Graph → Session) : Session :=
  .read path fun
    | .missing => .fail ("File not found: " ++ path)
    | .unreadable => .fail ("Failed to read file: " ++ path)
    | .text source =>
      match Document.parse source with
      | .error e => .fail ("Parse error: " ++ e.message)
      | .ok document =>
        match document.build with
        | .error e => .fail ("Invalid graph: " ++ e.message)
        | .ok g => next g

/-- The circuits of a graph, one for each of its parts. -/
def circuits (g : Graph) : Except CompileError (List Circuit) := do
  (← g.components).mapM g.compileVertices

def circuitLine (c : Circuit) (i : Nat) : String :=
  s!"  [{i}] {c.qubits} qubits, {c.clbits} clbits, depth {c.depth}, {c.gateCount} gates"

def compile (input : String) (output : Option String) : Session :=
  load input fun g =>
    match circuits g with
    | .error e => .fail e.message
    | .ok cs =>
      .err ("✓ Compiled " ++ input ++ s!" into {cs.length} component(s)") <|
      .errs (cs.zipIdx.map fun (c, i) => circuitLine c i) <|
      let text := (Value.list Circuit.toJson cs).pretty
      match output with
      | none => .out text (.exit 0)
      | some path => .write path text fun done =>
        if done then .err ("  Written to " ++ path) (.exit 0)
        else .fail ("Failed to write file: " ++ path)

/-- How results are shown. -/
inductive Format where
  | table
  | json
  deriving DecidableEq, Repr

def Format.ofName? (name : String) : Option Format :=
  if name = "table" then some .table
  else if name = "json" then some .json
  else none

/-- What stands above a table. -/
def Format.heading (a : RunArguments) (g : Graph) : Format → List String
  | .table => ["→ Running " ++ a.input ++ s!" ({a.options.shots} shots)",
      s!"  Loaded: {g.numQubits} qubits, {g.numClbits} clbits"]
  | .json => []

def Format.results (t : Tally) (milliseconds : Nat) : Format → List String
  | .table => t.table ++ ["", s!"  Execution time: {milliseconds} ms"]
  | .json => [(t.toJson milliseconds).pretty]

/-- Format names are compared in lower case, before the document is read. -/
def run (a : RunArguments) : Session :=
  let name := Text.lower a.format
  match Format.ofName? name with
  | none => .fail ("Unknown format: '" ++ name ++ "'. Available: table, json")
  | some format =>
    load a.input fun g =>
      .outs (format.heading a g) <|
      .clock fun start =>
        match Execution.run g a.options with
        | .error e => .fail e.message
        | .ok x => .clock fun stop => .outs (format.results x.tally (stop - start)) (.exit 0)

def Command.session : Command → Session
  | .compile input output => CommandLine.compile input output
  | .run a => CommandLine.run a
  | .version => .outs versionLines (.exit 0)

/-- The session of a whole command line; what cannot be read ends with code 2. -/
def session (args : List String) : Session :=
  match parse args with
  | .ok command => command.session
  | .error (.help page) => .outs page.lines (.exit 0)
  | .error .about => .out aboutLine (.exit 0)
  | .error .misuse => .err (Page.level .program).usage (.exit 2)

end QCircuit.CommandLine
