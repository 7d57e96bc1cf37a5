import QCircuit.Keyed
import QCircuit.Simulate.Amplitudes
import QCircuit.Simulate.Complex

/-!
One branch of a simulation: what has been measured so far, and the state that goes with it.

Measuring does not choose. It splits a branch in two, each with its share of the weight; a share
that is as good as nothing is dropped.
-/

namespace QCircuit

/-- What is not above this is taken for nothing. -/
def epsilon : Float := 1e-10

structure Branch where
  qubits : Nat
  amplitudes : Array Complex
  weight : Float
  clbits : List Bool
  /-- The qubit that each classical bit was last measured from. -/
  sources : Keyed Nat Nat
  /-- The amplitudes after each slice, if they are kept. -/
  history : Option (Array (Array Complex))
  deriving BEq, Repr

namespace Branch

/-- All qubits and classical bits zero. -/
def initial (qubits clbits : Nat) (record : Bool) : Branch where
  qubits := qubits
  amplitudes := (Array.replicate (stateSize qubits) 0).setIfInBounds 0 1
  weight := 1.0
  clbits := List.replicate clbits false
  sources := []
  history := if record then some #[] else none

def apply (b : Branch) (targets : List Nat) (m : Matrix Complex) : Branch :=
  { b with amplitudes := applyMatrix b.qubits targets m b.amplitudes }

/-- Whether a basis index has the qubit set. -/
def isSet (b : Branch) (qubit index : Nat) : Bool := index &&& qubitMask b.qubits qubit != 0

/-- The probability of reading a qubit as 0. -/
def probabilityOfZero (b : Branch) (qubit : Nat) : Float :=
  (b.amplitudes.toList.zipIdx.filter fun (_, i) => !b.isSet qubit i).foldl
    (fun p (a, _) => p + a.normSq) 0.0

def clamp (x : Float) : Float := if x < 0.0 then 0.0 else if 1.0 < x then 1.0 else x

/-- The branch in which a qubit was read as `outcome`, an event of probability `p`. -/
def child (b : Branch) (qubit clbit : Nat) (outcome : Bool) (p : Float) : Branch :=
  let scale := 1.0 / p.sqrt
  { b with
    amplitudes := b.amplitudes.mapIdx fun i a =>
      if b.isSet qubit i = outcome then a.scale scale else ⟨0.0, 0.0⟩
    weight := b.weight * p
    clbits := b.clbits.set clbit outcome
    sources := b.sources.insert clbit qubit }

/-- The outcomes of measuring a qubit into a classical bit, 0 before 1, without those of no
weight. -/
def measure (b : Branch) (qubit clbit : Nat) : List Branch :=
  let p := clamp (b.probabilityOfZero qubit)
  [(false, p), (true, 1.0 - p)].filterMap fun (outcome, p) =>
    if b.weight * p < epsilon then none else some (b.child qubit clbit outcome p)

/-- Ends a slice. -/
def record (b : Branch) : Branch := { b with history := b.history.map (·.push b.amplitudes) }

/-- The probabilities of the basis states, times the weight. -/
def weightedProbabilities (b : Branch) : Array Float :=
  b.amplitudes.map fun a => b.weight * a.normSq

end Branch
end QCircuit
