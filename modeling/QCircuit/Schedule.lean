import QCircuit.Circuit
import QCircuit.Compile.Error

/-!
Placing gates in time.

Every qubit has a row, and the length of the row is its next free slot. A gate goes into the first
slot that is free on all its qubits; the row of the first operand that reaches this slot stores
it, and the other rows hold a marker there. A measurement is a barrier: afterwards every row is
past its slot.
-/

namespace QCircuit

inductive Cell where
  | gate (g : Gate)
  | reserved
  deriving BEq, Repr

structure Schedule where
  rows : List (List Cell)
  deriving BEq, Repr

namespace Schedule

def empty (qubits : Nat) : Schedule := ⟨List.replicate qubits []⟩

/-- The next free slot of a qubit. -/
def nextFree? (s : Schedule) (q : Nat) : Option Nat := s.rows[q]?.map List.length

def height (s : Schedule) : Nat := (s.rows.map List.length).foldl max 0

/-- The last slot in use. -/
def maxSlot? (s : Schedule) : Option Nat := if s.height = 0 then none else some (s.height - 1)

/-- A row filled with identities up to a slot. -/
def pad (q slot : Nat) (row : List Cell) : List Cell :=
  row ++ List.replicate (slot - row.length) (.gate (.identity q))

/-- The first slot free on all the qubits. -/
def slotFor (s : Schedule) (qubits : List Nat) : Nat :=
  (qubits.map fun q => (s.nextFree? q).getD 0).foldl max 0

/-- Which operand's row stores a gate at the slot. -/
def ownerFor (s : Schedule) (qubits : List Nat) (slot : Nat) : Nat :=
  qubits.findIdx fun q => (s.nextFree? q).getD 0 = slot

/-- Fills the rows of the operands up to the slot and marks it in all but the owner's. -/
def mark (rows : List (List Cell)) (qubits : List Nat) (slot owner : Nat) : List (List Cell) :=
  qubits.zipIdx.foldl (fun rows (q, i) =>
    rows.modify q fun row => pad q slot row ++ if i = owner then [] else [.reserved]) rows

/-- The first operand that has no row. -/
def outside? (s : Schedule) (qubits : List Nat) : Option Nat :=
  qubits.find? fun q => s.rows.length ≤ q

/-- Places a gate on one to three qubits; the slot comes with it. -/
def place (s : Schedule) (g : Gate) : Except CompileError (Schedule × Nat) :=
  if g.qubits.length = 0 ∨ 3 < g.qubits.length then .error (.arity g.name g.qubits.length)
  else match s.outside? g.qubits with
    | some q => .error (.outOfRange q s.rows.length)
    | none =>
      let slot := s.slotFor g.qubits
      let owner := s.ownerFor g.qubits slot
      let rows := mark s.rows g.qubits slot owner
      .ok (⟨rows.modify (g.qubits.getD owner 0) (· ++ [.gate g])⟩, slot)

/-- Places measurements of the given qubits into the given clbits, all in one slot. -/
def measure (s : Schedule) (targets : List (Nat × Nat)) (condition : Option Condition) :
    Except CompileError (Schedule × Nat) :=
  match s.outside? (targets.map (·.1)) with
  | some q => .error (.outOfRange q s.rows.length)
  | none =>
    let slot := s.slotFor (targets.map (·.1))
    let rows := targets.foldl (fun rows (q, c) =>
      rows.modify q fun row => pad q slot row ++ [.gate (.measure q c condition)]) s.rows
    .ok (⟨rows.mapIdx fun q row => pad q (slot + 1) row⟩, slot)

/-- What row `q` gives to slice `t`. A measured qubit gives nothing more, and nothing may use it. -/
def emit (measured : List Nat) (t q : Nat) (cell : Option Cell) :
    Except CompileError (Option Gate) :=
  if q ∈ measured then
    match cell with
    | some (.gate g) => if g.isIdentity then .ok none else .error (.afterMeasurement q t g.name)
    | _ => .ok none
  else
    match cell with
    | some .reserved => .ok none
    | some (.gate g) =>
      match g.qubits.find? (· ∈ measured) with
      | some hit => .error (.afterMeasurement hit t g.name)
      | none => .ok (some g)
    | none => .ok (some (.identity q))

/-- The gates of slice `t`, each with its row. -/
def slice (s : Schedule) (measured : List Nat) (t : Nat) :
    Except CompileError (List (Gate × Nat)) := do
  let cells ← s.rows.zipIdx.mapM fun (row, q) => do
    return (← emit measured t q row[t]?).map fun g => (g, q)
  return cells.filterMap id

/-- The slices at the given slots, once some qubits are measured. -/
def slicesFrom (s : Schedule) (measured : List Nat) :
    List Nat → Except CompileError (List (List Gate))
  | [] => .ok []
  | t :: ts => do
    let gates ← s.slice measured t
    let fresh := (gates.filter (·.1.isMeasure)).map (·.2)
    return gates.map (·.1) :: (← s.slicesFrom (measured ++ fresh) ts)

/-- The circuit of the rows; slots that a row never reached become identities. -/
def flatten (s : Schedule) (clbits : Nat) : Except CompileError Circuit := do
  return ⟨← s.slicesFrom [] (List.range s.height), s.rows.length, clbits⟩

end Schedule
end QCircuit
