import QCircuit.Gate
import QCircuit.Json.Writer

/-!
Circuits: gates grouped into time slices.
-/

namespace QCircuit

open Json (Value)

structure Circuit where
  /-- The slices in the order of execution. -/
  slices : List (List Gate)
  qubits : Nat
  clbits : Nat
  deriving BEq, Repr

namespace Circuit

/-- All gates in the order of execution. -/
def gates (c : Circuit) : List Gate := c.slices.flatten

def depth (c : Circuit) : Nat := c.slices.length

/-- How many gates do something. -/
def gateCount (c : Circuit) : Nat := (c.gates.filter (!·.isIdentity)).length

def toJson (c : Circuit) : Value :=
  Value.record [("units", Value.list (Value.list Gate.toJson) c.slices),
    ("num_qubits", Value.nat c.qubits), ("num_clbits", Value.nat c.clbits)]

def ofJson? (v : Value) : Option Circuit := do
  let [slices, qubits, clbits] ← v.fields? ["units", "num_qubits", "num_clbits"] | none
  return ⟨← (← slices).list? (Value.list? Gate.ofJson?), ← (← qubits).word64?, ← (← clbits).word64?⟩

/-- The text of a circuit, indented. -/
def text (c : Circuit) : String := c.toJson.pretty

def parse? (s : String) : Option Circuit := (Json.parse? s).bind ofJson?

end Circuit
end QCircuit
