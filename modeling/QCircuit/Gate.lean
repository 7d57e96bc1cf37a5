import QCircuit.Condition

/-!
Gates: their kinds, and a gate with its operands.

A kind that is not built in keeps its name. It is scheduled like any other, and the simulator
refuses it.
-/

namespace QCircuit

open Json (Value)

namespace Gate

/-- The gates with a meaning of their own. -/
inductive Standard where
  | id
  | h
  | x
  | y
  | z
  | x90
  | y90
  | z90
  | s
  | sdg
  | t
  | tdg
  | rx
  | ry
  | rz
  | phase
  | cnot
  | cy
  | cz
  | ccx
  | measure
  deriving DecidableEq, Repr

namespace Standard

def name : Standard → String
  | .id => "I"
  | .h => "H"
  | .x => "X"
  | .y => "Y"
  | .z => "Z"
  | .x90 => "X90"
  | .y90 => "Y90"
  | .z90 => "Z90"
  | .s => "S"
  | .sdg => "Sd"
  | .t => "T"
  | .tdg => "Td"
  | .rx => "Rx"
  | .ry => "Ry"
  | .rz => "Rz"
  | .phase => "P"
  | .cnot => "CNOT"
  | .cy => "YCON"
  | .cz => "ZCON"
  | .ccx => "CCX"
  | .measure => "MEASURE"

def all : List Standard :=
  [.id, .h, .x, .y, .z, .x90, .y90, .z90, .s, .sdg, .t, .tdg, .rx, .ry, .rz, .phase, .cnot, .cy,
    .cz, .ccx, .measure]

/-- The gate of this name, or of one of the short names `ID`, `CX`, `CY`, `CZ`. -/
def ofName? (s : String) : Option Standard :=
  match s with
  | "ID" => some .id
  | "CX" => some .cnot
  | "CY" => some .cy
  | "CZ" => some .cz
  | s => all.find? (·.name = s)

/-- How many qubits the gate acts on. -/
def arity : Standard → Nat
  | .cnot | .cy | .cz => 2
  | .ccx => 3
  | _ => 1

/-- Whether the gate needs an angle. -/
def isRotation : Standard → Bool
  | .rx | .ry | .rz | .phase => true
  | _ => false

end Standard

inductive Kind where
  | standard (g : Standard)
  | custom (name : String)
  deriving DecidableEq, Repr

namespace Kind

def ofName (s : String) : Kind := ((Standard.ofName? s).map .standard).getD (.custom s)

def name : Kind → String
  | .standard g => g.name
  | .custom s => s

def isIdentity (k : Kind) : Bool := k = .standard .id

def isMeasure (k : Kind) : Bool := k = .standard .measure

end Kind
end Gate

/-- A gate on dense qubits, controls first. The angle is in degrees. -/
structure Gate where
  kind : Gate.Kind
  qubits : List Nat
  angle : Option Float := none
  /-- Where a measurement goes. -/
  clbit : Option Nat := none
  condition : Option Condition := none
  deriving BEq, Repr

namespace Gate

def identity (q : Nat) : Gate := { kind := .standard .id, qubits := [q] }

def measure (q c : Nat) (condition : Option Condition) : Gate :=
  { kind := .standard .measure, qubits := [q], clbit := some c, condition }

def name (g : Gate) : String := g.kind.name

def isIdentity (g : Gate) : Bool := g.kind.isIdentity

def isMeasure (g : Gate) : Bool := g.kind.isMeasure

/-- What is not set is left out. -/
def toJson (g : Gate) : Value :=
  Value.record ([("kind", Value.text g.name), ("qubits", Value.list Value.nat g.qubits)] ++
    (g.angle.map fun a => ("angle", Value.float a)).toList ++
    (g.clbit.map fun c => ("clbit", Value.nat c)).toList ++
    (g.condition.map fun c => ("condition", c.toJson)).toList)

def ofJson? (v : Value) : Option Gate := do
  let [kind, qubits, angle, clbit, condition] ←
    v.fields? ["kind", "qubits", "angle", "clbit", "condition"] | none
  return {
    kind := .ofName (← (← kind).text?)
    qubits := ← (← qubits).list? Value.word32?
    angle := ← (angle.getD .null).nullable? Value.float?
    clbit := ← (clbit.getD .null).nullable? Value.word32?
    condition := ← (condition.getD .null).nullable? Condition.ofJson? }

end Gate
end QCircuit
