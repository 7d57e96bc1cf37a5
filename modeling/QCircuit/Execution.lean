import QCircuit.Compile
import QCircuit.Options
import QCircuit.Simulate.Outcome
import QCircuit.Tally

/-!
Running a graph: compiled, simulated and tallied.
-/

namespace QCircuit

inductive ExecutionError where
  | graph (e : GraphError)
  | compile (e : CompileError)
  | unsupported (e : SimulationError)
  | simulation (e : SimulationError)
  /-- A qubit to be kept lies beyond the compiled ones. -/
  | retained (qubit qubits : Nat)
  deriving Repr

namespace ExecutionError

def message : ExecutionError → String
  | .graph e => "Graph access error: " ++ e.message
  | .compile e => "Compilation failed: " ++ e.message
  | .unsupported e => "Unsupported gate: " ++ e.message
  | .simulation e => "Simulation failed: " ++ e.message
  | .retained qubit qubits =>
    s!"Invalid options: measured qubit {qubit} is outside the {qubits} compiled qubit(s)"

/-- A graph that cannot be read is told apart from one that does not compile. -/
def ofCompile : CompileError → ExecutionError
  | .graph e => .graph e
  | e => .compile e

/-- A gate that is unknown is told apart from one that does not fit. -/
def ofSimulation : SimulationError → ExecutionError
  | .unsupported gate qubit => .unsupported (.unsupported gate qubit)
  | e => .simulation e

end ExecutionError

/-- The result of running a graph. -/
structure Execution where
  tally : Tally
  /-- The amplitudes, if no measurement has split the state. -/
  state : Option (List Complex)
  deriving Repr

namespace Execution

def simulate (c : Circuit) (record : Bool) : Except ExecutionError Outcome :=
  (Outcome.simulate c record).mapError .ofSimulation

/-- The graph as one circuit. -/
def runWhole (g : Graph) (o : Options) : Except ExecutionError Outcome := do
  simulate (← g.compile.mapError .ofCompile) o.verbose

/-- Each part of the graph on its own; parts without qubits add nothing. -/
def runParts (g : Graph) (o : Options) : Except ExecutionError Outcome := do
  let parts ← g.components.mapError .ofCompile
  let outcomes ← parts.mapM fun part => do
    let c ← (g.compileVertices part).mapError .ofCompile
    if c.qubits = 0 then return none else return some (← simulate c o.verbose)
  return (outcomes.filterMap id).foldl .tensor .unit

def run (g : Graph) (o : Options) : Except ExecutionError Execution := do
  let outcome ← if o.parallel then runParts g o else runWhole g o
  let qubits := outcome.probabilities.length.log2
  match o.retained.find? (qubits ≤ ·) with
  | some q => .error (.retained q qubits)
  | none => return ⟨⟨pack outcome.probabilities o.retained, o.shots⟩, outcome.state⟩

end Execution
end QCircuit
