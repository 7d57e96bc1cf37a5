import QCircuit.Compile.Error
import QCircuit.Graph.Basic

/-!
The dense numbering that a list of vertices gives to its bits.

All registers of the list are declared up front, so a body may read clbits whose register comes
later. The live bits are the initial vertices of the list.
-/

namespace QCircuit

structure Numbering where
  qubits : DenseMap := {}
  clbits : DenseMap := {}
  liveQubits : Nat := 0
  liveClbits : Nat := 0
  deriving DecidableEq, Repr

namespace Numbering

def add (n : Numbering) : Vertex → Numbering
  | .register r =>
    match r.kind with
    | .qubit => { n with qubits := n.qubits.declare r }
    | .clbit => { n with clbits := n.clbits.declare r }
  | .initQubit => { n with liveQubits := n.liveQubits + 1 }
  | .initClbit => { n with liveClbits := n.liveClbits + 1 }
  | _ => n

def ofVertices (g : Graph) (vs : List Nat) : Except CompileError Numbering :=
  vs.foldlM (fun n v => do return n.add (← (g.vertex v).mapError .graph)) {}

def map (n : Numbering) : BitKind → DenseMap
  | .qubit => n.qubits
  | .clbit => n.clbits

def live (n : Numbering) : BitKind → Nat
  | .qubit => n.liveQubits
  | .clbit => n.liveClbits

/-- The dense index of a bit that vertex `v` uses. -/
def dense (n : Numbering) (kind : BitKind) (v bit : Nat) : Except CompileError Nat :=
  match (n.map kind).get? bit with
  | none => .error (.graph (.access v (.undeclared kind bit)))
  | some d =>
    if d < n.live kind then .ok d
    else .error (.graph (.access v (.beyondLive kind bit d (n.live kind))))

/-- The condition on vertex `v`, on dense clbits. -/
def condition (n : Numbering) (g : Graph) (v : Nat) (op : Operation) :
    Except CompileError (Option Condition) :=
  match op.comparison with
  | none => .ok none
  | some (relation, constant) => do
    let bits ← (g.incidentBits v .conbit).mapError .graph
    return some ⟨← bits.mapM (n.dense .clbit v), relation, constant⟩

end Numbering
end QCircuit
