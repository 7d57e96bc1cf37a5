import QCircuit.Compile.Expansion
import QCircuit.Component

/-!
Compiling a graph, whole or one part at a time.
-/

namespace QCircuit

/-- Schedules the measurement at `v`: one clbit for each qubit. -/
def Schedule.placeMeasurement (s : Schedule) (g : Graph) (n : Numbering) (v : Nat)
    (op : Operation) (qubits : List Nat) (condition : Option Condition) :
    Except CompileError (Schedule × Nat) := do
  let clbits ← (g.incidentBits v .clbit).mapError .graph
  if clbits.length = qubits.length then
    let targets ← clbits.mapM (n.dense .clbit v)
    s.measure (qubits.zip targets) condition
  else
    .error (.graph (.access v (.measureMismatch op.name qubits.length clbits.length)))

namespace Graph

/-- The parameters of an operation outside all bodies. -/
def topParams (op : Operation) : Except CompileError (List Float) :=
  (op.resolve []).mapError fun e => .graph (.parameters op.name e)

/-- Schedules what a vertex does. -/
def translate (g : Graph) (n : Numbering) (s : Schedule) (v : Nat) :
    Except CompileError Schedule := do
  match ← (g.vertex v).mapError .graph with
  | .op op =>
    let condition ← n.condition g v op
    let qubits ← op.qubits.mapM (n.dense .qubit v)
    let placed ←
      if (Gate.Kind.ofName op.name).isMeasure then
        s.placeMeasurement g n v op qubits condition
      else do s.placeNamed op.name qubits (← topParams op) condition
    return placed.1
  | .caller op =>
    let condition ← n.condition g v op
    let context : CallContext := ⟨op.qubits, ← topParams op, condition⟩
    let placed ← expandCall g n g.definedNames v op.name context s
    return placed.1
  | _ => return s

/-- The circuit of a list of vertices. -/
def compileVertices (g : Graph) (vs : List Nat) : Except CompileError Circuit := do
  let n ← Numbering.ofVertices g vs
  let s ← vs.foldlM (g.translate n) (.empty n.liveQubits)
  s.flatten n.liveClbits

/-- The parts of the graph, in topological order each. -/
def components (g : Graph) : Except CompileError (List (List Nat)) := do
  return g.decompose (← g.topologicalOrder.mapError .graph)

/-- The circuit of the whole graph; each part has a block of qubits of its own. -/
def compile (g : Graph) : Except CompileError Circuit := do
  g.compileVertices (← g.components).flatten

end Graph
end QCircuit
