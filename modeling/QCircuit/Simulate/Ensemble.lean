import QCircuit.Circuit
import QCircuit.Simulate.Branch
import QCircuit.Simulate.Unitary

/-!
All branches of a simulation.

Branches are stored by id. A measured branch leaves its place empty, and its children take its
position among the live ids. Which live branches satisfy a condition is remembered: measuring a
classical bit forgets the conditions that read it, and in the others the children stand for their
parent, whose remaining bits they share.
-/

namespace QCircuit

structure Ensemble where
  store : Array (Option Branch)
  live : List Nat
  /-- The live ids that satisfy a condition, for the conditions met so far. -/
  cache : List (Condition × List Nat)
  /-- Classical bits with conditions that read them. -/
  dependents : List (Nat × Condition)
  qubits : Nat
  clbits : Nat

namespace Ensemble

def initial (qubits clbits : Nat) (record : Bool) : Ensemble where
  store := #[some (.initial qubits clbits record)]
  live := [0]
  cache := []
  dependents := []
  qubits := qubits
  clbits := clbits

def branch? (e : Ensemble) (id : Nat) : Option Branch := (e.store[id]?).join

/-- The live branches in order. -/
def branches (e : Ensemble) : List Branch := e.live.filterMap e.branch?

/-- Remembers the live branches that satisfy a condition. -/
def remember (e : Ensemble) (c : Condition) : Ensemble :=
  let satisfying := e.live.filter fun id => (e.branch? id).any (c.holds ·.clbits)
  let fresh := (c.clbits.map fun b => (b, c)).filter (· ∉ e.dependents)
  { e with cache := (c, satisfying) :: e.cache, dependents := fresh ++ e.dependents }

/-- The live branches that a gate with this condition acts on. -/
def targeted (e : Ensemble) : Option Condition → Ensemble × List Nat
  | none => (e, e.live)
  | some c =>
    let e := if (e.cache.lookup c).isSome then e else e.remember c
    (e, e.live.filter (· ∈ (e.cache.lookup c).getD []))

/-- Puts the children of measured branches in their place. -/
def substitute (replaced : List (Nat × List Nat)) (ids : List Nat) : List Nat :=
  ids.flatMap fun id => (replaced.lookup id).getD [id]

/-- Splits one branch; the ids of its children are noted. -/
def split (qubit clbit : Nat) (s : Array (Option Branch) × List (Nat × List Nat)) (parent : Nat) :
    Array (Option Branch) × List (Nat × List Nat) :=
  match (s.1[parent]?).join with
  | none => s
  | some b =>
    let children := b.measure qubit clbit
    let ids := List.range' s.1.size children.length
    (s.1.setIfInBounds parent none ++ (children.map some).toArray, (parent, ids) :: s.2)

/-- Forgets the conditions that read a classical bit and brings the others up to date. -/
def invalidate (e : Ensemble) (clbit : Nat) (replaced : List (Nat × List Nat)) : Ensemble :=
  { e with
    cache := (e.cache.filter fun (c, _) => (clbit, c) ∉ e.dependents).map fun (c, ids) =>
      (c, substitute replaced ids)
    dependents := e.dependents.filter (·.1 ≠ clbit) }

/-- Measures a qubit into a classical bit on some of the live branches. -/
def measureOn (e : Ensemble) (qubit clbit : Nat) (ids : List Nat) : Ensemble :=
  let (store, replaced) := ids.foldl (split qubit clbit) (e.store, [])
  { e with store, live := substitute replaced e.live }.invalidate clbit replaced

/-- Where a measurement goes: its classical bit, or the one with the number of the qubit. -/
def measurement (e : Ensemble) (g : Gate) : Except SimulationError (Nat × Nat) := do
  let targets ← g.targets e.qubits
  match targets with
  | [] => .error (.arity g.name 1 0)
  | qubit :: _ =>
    let clbit := g.clbit.getD qubit
    if clbit < e.clbits then return (qubit, clbit) else .error (.clbitOutOfRange clbit e.clbits)

def unitary (e : Ensemble) (g : Gate) : Except SimulationError (List Nat × Matrix Complex) := do
  let m ← g.matrix
  return (← g.targets e.qubits, m)

def applyOn (e : Ensemble) (targets : List Nat) (m : Matrix Complex) (ids : List Nat) : Ensemble :=
  { e with store := ids.foldl (fun s id => s.modify id (·.map (·.apply targets m))) e.store }

/-- Applies a gate to the live branches that it is meant for. A refused gate may leave its
condition remembered. -/
def applyGate (e : Ensemble) (g : Gate) : Ensemble × Except SimulationError Unit :=
  let (e, ids) := e.targeted g.condition
  if g.isMeasure then
    match e.measurement g with
    | .ok (qubit, clbit) => (e.measureOn qubit clbit ids, .ok ())
    | .error err => (e, .error err)
  else
    match e.unitary g with
    | .ok (targets, m) => (e.applyOn targets m ids, .ok ())
    | .error err => (e, .error err)

/-- Applies gates in order up to the first refused one. -/
def applyGates (e : Ensemble) : List Gate → Ensemble × Except SimulationError Unit
  | [] => (e, .ok ())
  | g :: gs =>
    match e.applyGate g with
    | (e, .ok ()) => e.applyGates gs
    | (e, .error err) => (e, .error err)

/-- Ends a slice on all live branches. -/
def endSlice (e : Ensemble) : Ensemble :=
  { e with store := e.live.foldl (fun s id => s.modify id (·.map Branch.record)) e.store }

def runSlices (e : Ensemble) : List (List Gate) → Ensemble × Except SimulationError Unit
  | [] => if e.live.isEmpty then (e, .error .allPruned) else (e, .ok ())
  | gates :: slices =>
    match e.applyGates (gates.filter (!·.isIdentity)) with
    | (e, .ok ()) => e.endSlice.runSlices slices
    | (e, .error err) => (e, .error err)

def run (e : Ensemble) (c : Circuit) : Ensemble × Except SimulationError Unit :=
  e.runSlices c.slices

/-- The branches of a circuit that starts with all bits zero. -/
def simulate (c : Circuit) (record : Bool) : Except SimulationError Ensemble :=
  match (initial c.qubits c.clbits record).run c with
  | (e, .ok ()) => .ok e
  | (_, .error err) => .error err

/-- The probability of each basis state over all branches. -/
def probabilities (e : Ensemble) : Array Float :=
  e.branches.foldl (fun ps b => ps.zipWith (· + ·) b.weightedProbabilities)
    (Array.replicate (stateSize e.qubits) 0.0)

/-- The state, if a single branch is left. -/
def finalState? (e : Ensemble) : Option (Array Complex) :=
  match e.live with
  | [id] => (e.branch? id).map (·.amplitudes)
  | _ => none

end Ensemble
end QCircuit
