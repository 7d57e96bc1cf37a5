import QCircuit.Angle
import QCircuit.Gate
import QCircuit.Simulate.Amplitudes
import QCircuit.Simulate.Complex

/-!
The unitaries of the built-in gates.
-/

namespace QCircuit

/-- Why a gate cannot be simulated. -/
inductive SimulationError where
  | unsupported (gate : String) (qubit : Nat)
  | missingAngle (gate : String)
  | arity (gate : String) (expected got : Nat)
  | qubitOutOfRange (qubit qubits : Nat)
  | duplicateQubit (gate : String) (qubit : Nat)
  | clbitOutOfRange (clbit clbits : Nat)
  | allPruned
  deriving DecidableEq, Repr

def SimulationError.message : SimulationError → String
  | .unsupported gate qubit => "Unsupported gate '" ++ gate ++ s!"' on qubit {qubit}"
  | .missingAngle gate => "Gate '" ++ gate ++ "' requires an angle"
  | .arity gate expected got => "Gate '" ++ gate ++ s!"' acts on {expected} qubit(s), got {got}"
  | .qubitOutOfRange qubit qubits => s!"Qubit {qubit} out of range for {qubits} qubit(s)"
  | .duplicateQubit gate qubit => "Gate '" ++ gate ++ s!"' repeats qubit {qubit}"
  | .clbitOutOfRange clbit clbits => s!"Classical bit {clbit} out of range for {clbits} bit(s)"
  | .allPruned => "All branches were pruned"

namespace Unitary

def diagonal (a b : Complex) : Matrix Complex := [[a, 0], [0, b]]

def pauliX : Matrix Complex := [[0, 1], [1, 0]]
def pauliY : Matrix Complex := [[0, -Complex.i], [Complex.i, 0]]
def pauliZ : Matrix Complex := diagonal 1 (-1)

def hadamard : Matrix Complex :=
  let h := Complex.ofReal 0.7071067811865476
  [[h, h], [h, -h]]

/-- The rotation around X by an angle in radians. -/
def rx (θ : Float) : Matrix Complex :=
  let c := (θ / 2.0).cos
  let s := (θ / 2.0).sin
  [[⟨c, 0.0⟩, ⟨0.0, -s⟩], [⟨0.0, -s⟩, ⟨c, 0.0⟩]]

/-- The rotation around Y. -/
def ry (θ : Float) : Matrix Complex :=
  let c := (θ / 2.0).cos
  let s := (θ / 2.0).sin
  [[⟨c, 0.0⟩, ⟨-s, 0.0⟩], [⟨s, 0.0⟩, ⟨c, 0.0⟩]]

/-- The rotation around Z. -/
def rz (θ : Float) : Matrix Complex := diagonal (.unit (-θ / 2.0)) (.unit (θ / 2.0))

def phase (θ : Float) : Matrix Complex := diagonal 1 (.unit θ)

end Unitary

namespace Gate

/-- The matrix of a built-in gate under an angle in degrees; measuring has none. -/
def Standard.matrix (g : Standard) (angle : Option Float) :
    Except SimulationError (Matrix Complex) :=
  let turn (f : Float → Matrix Complex) : Except SimulationError (Matrix Complex) :=
    match angle with
    | some a => .ok (f (Angle.toRadians a))
    | none => .error (.missingAngle g.name)
  match g with
  | .id => .ok (Matrix.identity 2)
  | .h => .ok Unitary.hadamard
  | .x => .ok Unitary.pauliX
  | .y => .ok Unitary.pauliY
  | .z => .ok Unitary.pauliZ
  | .x90 => .ok (Unitary.rx (pi / 2.0))
  | .y90 => .ok (Unitary.ry (pi / 2.0))
  | .z90 => .ok (Unitary.rz (pi / 2.0))
  | .s => .ok (Unitary.diagonal 1 Complex.i)
  | .sdg => .ok (Unitary.diagonal 1 (-Complex.i))
  | .t => .ok (Unitary.phase (pi / 4.0))
  | .tdg => .ok (Unitary.phase (-(pi / 4.0)))
  | .rx => turn Unitary.rx
  | .ry => turn Unitary.ry
  | .rz => turn Unitary.rz
  | .phase => turn Unitary.phase
  | .cnot => .ok (Unitary.pauliX.controlled 1)
  | .cy => .ok (Unitary.pauliY.controlled 1)
  | .cz => .ok (Unitary.pauliZ.controlled 1)
  | .ccx => .ok (Unitary.pauliX.controlled 2)
  | .measure => .error (.unsupported g.name 0)

/-- The matrix of a gate, on as many qubits as it has operands. -/
def matrix (g : Gate) : Except SimulationError (Matrix Complex) :=
  let unsupported := .error (.unsupported g.name (g.qubits.head?.getD 0))
  match g.kind with
  | .custom _ | .standard .measure => unsupported
  | .standard std => do
    let m ← std.matrix g.angle
    if g.qubits.length = std.arity then return m
    else .error (.arity g.name std.arity g.qubits.length)

/-- The operands from those checked on: in range and not among the earlier ones. -/
def checkFrom (g : Gate) (n : Nat) (earlier : List Nat) : List Nat → Except SimulationError Unit
  | [] => .ok ()
  | q :: qs =>
    if n ≤ q then .error (.qubitOutOfRange q n)
    else if q ∈ earlier then .error (.duplicateQubit g.name q)
    else g.checkFrom n (q :: earlier) qs

/-- The operands of a gate on `n` qubits: all in range, none twice. -/
def targets (g : Gate) (n : Nat) : Except SimulationError (List Nat) :=
  (g.checkFrom n [] g.qubits).map fun _ => g.qubits

end Gate
end QCircuit
