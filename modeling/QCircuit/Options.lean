import QCircuit.Json.Decode
import QCircuit.Keyed

/-!
Options of an execution.
-/

namespace QCircuit

open Json (Value)

structure Options where
  shots : Nat := 1024
  /-- The qubits kept in result keys, ascending; none means all. -/
  retained : List Nat := []
  printCircuit : Bool := false
  /-- Whether the amplitudes after each slice are kept. -/
  verbose : Bool := false
  parallel : Bool := false
  deriving DecidableEq, Repr

namespace Options

/-- A set of numbers, ascending. -/
def setOf (ns : List Nat) : List Nat := (Keyed.ofList (ns.map fun n => (n, ()))).map (·.1)

def flag? (v : Option Value) : Option Bool := (v.getD (.bool false)).bool?

def ofJson? (v : Value) : Option Options := do
  let [shots, retained, printCircuit, verbose, parallel] ←
    v.fields? ["shots", "mqubits", "print_circuit", "verbose", "parallel"] | none
  return {
    shots := ← (shots.getD (Value.nat 1024)).word32?
    retained := setOf (← (retained.getD (.arr [])).list? Value.word64?)
    printCircuit := ← flag? printCircuit
    verbose := ← flag? verbose
    parallel := ← flag? parallel }

def parse? (s : String) : Option Options := (Json.parse? s).bind ofJson?

end Options
end QCircuit
