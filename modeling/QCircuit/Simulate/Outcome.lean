import QCircuit.Simulate.Ensemble

/-!
What simulating a circuit gives, and how the outcomes of independent circuits combine.
-/

namespace QCircuit

/-- All products of an element of the first list and one of the second, the first list slow. -/
def kron {α : Type} [Mul α] (xs ys : List α) : List α := xs.flatMap fun x => ys.map (x * ·)

structure Outcome where
  /-- The probability of each basis state. -/
  probabilities : List Float
  /-- The amplitudes, if a single branch is left. -/
  state : Option (List Complex)
  deriving BEq, Repr

namespace Outcome

/-- The outcome of no qubits. -/
def unit : Outcome := ⟨[1.0], some [1]⟩

/-- Both outcomes side by side, the first as the high-order block. -/
def tensor (a b : Outcome) : Outcome where
  probabilities := kron a.probabilities b.probabilities
  state := do return kron (← a.state) (← b.state)

def ofEnsemble (e : Ensemble) : Outcome :=
  ⟨e.probabilities.toList, e.finalState?.map Array.toList⟩

def simulate (c : Circuit) (record : Bool) : Except SimulationError Outcome :=
  (Ensemble.simulate c record).map ofEnsemble

end Outcome
end QCircuit
