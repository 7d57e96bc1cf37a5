import QCircuit.Graph.Error
import QCircuit.Register

/-!
Circuit graphs.

A vertex is a register, one of its initial bits, a gate, a call, a definition or a gate inside
one. An edge carries a bit from the vertex that used it last to the next one; edges keep the
order in which they were added.
-/

namespace QCircuit

inductive Vertex where
  | register (r : Register)
  | op (o : Operation)
  | caller (o : Operation)
  | define (name : String) (params qubits clbits : Nat)
  | callee (o : Operation)
  | initQubit
  | initClbit
  deriving Repr

namespace Vertex

def label : Vertex → String
  | .register _ => "register"
  | .op _ => "op"
  | .caller _ => "caller"
  | .define .. => "def"
  | .callee _ => "callee"
  | .initQubit => "init_qubit"
  | .initClbit => "init_clbit"

def init : BitKind → Vertex
  | .qubit => .initQubit
  | .clbit => .initClbit

def operation? : Vertex → Option Operation
  | .op o | .caller o | .callee o => some o
  | _ => none

/-- The vertex with its comparison set, if it can carry one. -/
def compare? (v : Vertex) (relation : Relation) (constant : Int) : Option Vertex :=
  let set (o : Operation) : Operation := { o with comparison := some (relation, constant) }
  match v with
  | .op o => some (.op (set o))
  | .caller o => some (.caller (set o))
  | .callee o => some (.callee (set o))
  | _ => none

/-- Whether the vertex can stand in the body of a definition. -/
def isCall : Vertex → Bool
  | .callee _ | .caller _ => true
  | _ => false

def isRegister : Vertex → Bool
  | .register _ => true
  | _ => false

end Vertex

/-- Bit number `i` of a register as the builder sees it. -/
def Register.leaf (r : Register) (i : Nat) : Leaf := ⟨.global, r.kind, r.bit i⟩

@[simp] theorem Register.scope_leaf (r : Register) (i : Nat) : (r.leaf i).scope = .global := rfl

structure Edge where
  source : Nat
  target : Nat
  bit : Option (Wire × Nat) := none
  deriving DecidableEq, Repr

/-- A vertex; one in the body of a definition knows the root of that body. -/
structure Node where
  vertex : Vertex
  root : Option Nat := none
  deriving Repr

structure Graph where
  nodes : Array Node := #[]
  edges : Array Edge := #[]
  /-- The vertex that used each bit last, the latest use first. -/
  frontier : List (Leaf × Nat) := []
  /-- The definition that body vertices now belong to. -/
  current : Option Nat := none
  deriving Repr

namespace Graph

def empty : Graph := {}

def size (g : Graph) : Nat := g.nodes.size

def vertices (g : Graph) : List Vertex := g.nodes.toList.map (·.vertex)

def numQubits (g : Graph) : Nat := g.vertices.countP fun | .initQubit => true | _ => false

def numClbits (g : Graph) : Nat := g.vertices.countP fun | .initClbit => true | _ => false

/-- The position of a vertex. Ids are 32-bit words, and what lies above is cut off. -/
def locate (g : Graph) (id : Nat) : Except GraphError Nat :=
  if id % 4294967296 < g.size then .ok (id % 4294967296) else .error (.invalidVertex id)

def vertex? (g : Graph) (v : Nat) : Option Vertex := g.nodes[v]?.map (·.vertex)

def vertex (g : Graph) (id : Nat) : Except GraphError Vertex :=
  match g.vertex? (id % 4294967296) with
  | some v => .ok v
  | none => .error (.invalidVertex id)

/-- The targets of the edges out of a position, in edge order. -/
def outgoing (g : Graph) (v : Nat) : List Nat :=
  (g.edges.filterMap fun e => if e.source = v then some e.target else none).toList

/-- The sources of the edges into a position, in edge order. -/
def incoming (g : Graph) (v : Nat) : List Nat :=
  (g.edges.filterMap fun e => if e.target = v then some e.source else none).toList

/-- The bits that edges bring into a position on a wire, in edge order. -/
def bitsInto (g : Graph) (v : Nat) (wire : Wire) : List Nat :=
  (g.edges.filterMap fun e =>
    match e.bit with
    | some (w, b) => if e.target = v ∧ w = wire then some b else none
    | none => none).toList

def successors (g : Graph) (id : Nat) : Except GraphError (List Nat) :=
  (g.locate id).map g.outgoing

def predecessors (g : Graph) (id : Nat) : Except GraphError (List Nat) :=
  (g.locate id).map g.incoming

def neighbors (g : Graph) (id : Nat) : Except GraphError (List Nat) :=
  (g.locate id).map fun v => g.outgoing v ++ g.incoming v

def incidentBits (g : Graph) (id : Nat) (wire : Wire) : Except GraphError (List Nat) :=
  (g.locate id).map fun v => g.bitsInto v wire

/-- The first definition of this name. -/
def findDefinition? (g : Graph) (name : String) : Option Nat :=
  g.vertices.findIdx? fun
    | .define n .. => n = name
    | _ => false

/-- The names that are defined, each once. -/
def definedNames (g : Graph) : List String :=
  (g.vertices.filterMap fun
    | .define n .. => some n
    | _ => none).eraseDups

end Graph
end QCircuit
