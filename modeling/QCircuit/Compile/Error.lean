import QCircuit.Graph.Error

/-!
What can go wrong when a graph is compiled.
-/

namespace QCircuit

/-- Why a call cannot be expanded. -/
inductive ExpansionFault where
  | undefined
  | recursive
  | measurement
  | slot (index count : Nat)
  | parameters (name : String) (fault : ParameterFault)
  deriving Repr

def ExpansionFault.message : ExpansionFault → String
  | .undefined => "no definition with this name"
  | .recursive => "macro calls itself"
  | .measurement => "measurement is not allowed inside a macro body"
  | .slot index count => s!"local qubit {index} is outside the {count} qubit(s) of the call"
  | .parameters name fault => (GraphError.parameters name fault).message

inductive CompileError where
  | graph (e : GraphError)
  | expansion (vertex : Nat) (name : String) (fault : ExpansionFault)
  /-- A gate comes after the measurement of one of its qubits. -/
  | afterMeasurement (qubit slot : Nat) (gate : String)
  | arity (gate : String) (got : Nat)
  | outOfRange (qubit rows : Nat)
  deriving Repr

def CompileError.message : CompileError → String
  | .graph e => "Graph access error: " ++ e.message
  | .expansion vertex name fault =>
    "Cannot expand '" ++ name ++ s!"' at vertex {vertex}: " ++ fault.message
  | .afterMeasurement qubit slot gate =>
    s!"Qubit {qubit} has been measured; found '" ++ gate ++ s!"' at slot {slot}"
  | .arity gate got => "Gate '" ++ gate ++ s!"' acts on {got} qubits; expected 1 to 3"
  | .outOfRange qubit rows => s!"Qubit {qubit} is outside the {rows} scheduled qubits"

end QCircuit
