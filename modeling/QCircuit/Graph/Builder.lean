import QCircuit.Graph.Basic

/-!
Building a circuit graph.

Each call appends a vertex and links it to the vertex that used each of its bits last. Global
bits belong to registers; inside a definition bits are local slots, which start at the root of
the definition. A call with an unknown bit changes nothing. A condition is linked bit by bit, and
the bits before an unknown one stay linked.
-/

namespace QCircuit.Graph

/-- Appends a vertex. -/
def push (g : Graph) (v : Vertex) (root : Option Nat) : Graph :=
  { g with nodes := g.nodes.push ⟨v, root⟩ }

/-- Makes `v` the last user of a bit. -/
def advance (g : Graph) (leaf : Leaf) (v : Nat) : Graph :=
  { g with frontier := (leaf, v) :: g.frontier }

def connect (g : Graph) (e : Edge) : Graph := { g with edges := g.edges.push e }

def knows (g : Graph) (leaf : Leaf) : Bool := (g.frontier.lookup leaf).isSome

/-- Brings a bit from its last user to `v`. -/
def link? (g : Graph) (leaf : Leaf) (v : Nat) (wire : Wire) : Option Graph :=
  (g.frontier.lookup leaf).map fun u => (g.connect ⟨u, v, some (wire, leaf.id)⟩).advance leaf v

/-- Brings the bits that have a last user to `v`, one after the other. -/
def linkAll (g : Graph) (v : Nat) (bits : List (Leaf × Wire)) : Graph :=
  bits.foldl (fun g (leaf, wire) => (g.link? leaf v wire).getD g) g

/-- Declares a register: one vertex for it and one for each bit. -/
def addRegister (g : Graph) (r : Register) : Graph × Nat :=
  let reg := g.size
  let bit (g : Graph) (i : Nat) : Graph :=
    let v := g.size
    ((g.push (.init r.kind) none).connect ⟨reg, v, none⟩).advance (r.leaf i) v
  ((List.range r.count).foldl bit (g.push (.register r) none), reg)

/-- Starts a definition; its slots begin at the root. -/
def addDefinition (g : Graph) (name : String) (params qubits clbits : Nat) : Graph × Nat :=
  let root := g.size
  let slots (kind : BitKind) (n : Nat) (g : Graph) : Graph :=
    (List.range n).foldl (fun g i => g.advance ⟨.inner, kind, i⟩ root) g
  let g := g.push (.define name params qubits clbits) none
  ({ slots .clbit clbits (slots .qubit qubits g) with current := some root }, root)

/-- Appends an operation on the given bits, all of which must be known. -/
def attach (g : Graph) (scope : Scope) (wrap : Operation → Vertex) (op : Operation)
    (clbits : List Nat) : Except GraphError (Graph × Nat) :=
  let bits : List (Leaf × Wire) :=
    op.qubits.map (fun q => (⟨scope, .qubit, q⟩, .qubit)) ++
      clbits.map (fun c => (⟨scope, .clbit, c⟩, .clbit))
  match bits.find? fun b => !g.knows b.1 with
  | some (leaf, _) => .error (.unknownBit leaf (some op.name))
  | none =>
    let root := if scope = .inner then g.current else none
    .ok ((g.push (wrap op) root).linkAll g.size bits, g.size)

def literals (values : List Float) : List Expr := values.map .const

def addOp (g : Graph) (name : String) (params : List Float) (qubits clbits : List Nat) :
    Except GraphError (Graph × Nat) :=
  g.attach .global .op { name, qubits, params := literals params } clbits

def addCaller (g : Graph) (name : String) (params : List Float) (qubits clbits : List Nat) :
    Except GraphError (Graph × Nat) :=
  g.attach .global .caller { name, qubits, params := literals params } clbits

/-- Appends a gate to the current definition, or a call of another one. -/
def addCallee (g : Graph) (name : String) (params : List Expr) (qubits clbits : List Nat)
    (pindex : List Int) (isCaller : Bool) : Except GraphError (Graph × Nat) :=
  g.attach .inner (if isCaller then .caller else .callee) { name, qubits, params, pindex } clbits

/-- Links the bits that a condition reads to `v`, up to the first unknown one. -/
def linkCondition (g : Graph) (v : Nat) : List Nat → Graph × Except GraphError Unit
  | [] => (g, .ok ())
  | c :: cs =>
    match g.link? ⟨.global, .clbit, c⟩ v .conbit with
    | none => (g, .error (.unknownBit ⟨.global, .clbit, c⟩ none))
    | some g' => g'.linkCondition v cs

/-- Links condition bits inside a definition: they come from its root and are not looked up. -/
def linkFromRoot (g : Graph) (root v : Nat) (clbits : List Nat) : Graph :=
  clbits.foldl (fun g c => g.connect ⟨root, v, some (.conbit, c)⟩) g

/-- Sets the comparison of an operation. -/
def setComparison (g : Graph) (v : Nat) (relation : Relation) (constant : Int) : Graph :=
  { g with nodes := g.nodes.modify v fun n =>
      { n with vertex := (n.vertex.compare? relation constant).getD n.vertex } }

/-- Puts a condition on an operation. -/
def addCondition (g : Graph) (id : Nat) (clbits : List Nat) (relation : Relation)
    (constant : Int) : Graph × Except GraphError Unit :=
  let v := id % 4294967296
  match g.nodes[v]? with
  | none => (g, .error (.invalidVertex id))
  | some node =>
    if node.vertex.operation?.isNone then (g, .error (.access id .notConditional))
    else match node.root with
      | some root => ((g.linkFromRoot root v clbits).setComparison v relation constant, .ok ())
      | none =>
        match g.linkCondition v clbits with
        | (g', .ok ()) => (g'.setComparison v relation constant, .ok ())
        | (g', .error e) => (g', .error e)

/-- One builder call. -/
inductive Call where
  | register (r : Register)
  | op (name : String) (params : List Float) (qubits clbits : List Nat)
  | caller (name : String) (params : List Float) (qubits clbits : List Nat)
  | define (name : String) (params qubits clbits : Nat)
  | callee (name : String) (params : List Expr) (qubits clbits : List Nat) (pindex : List Int)
      (isCaller : Bool)
  | condition (id : Nat) (clbits : List Nat) (relation : Relation) (constant : Int)
  deriving Repr

/-- The graph after a call, and the vertex that the call is about. -/
def perform (g : Graph) (c : Call) : Graph × Except GraphError Nat :=
  let keep : Except GraphError (Graph × Nat) → Graph × Except GraphError Nat
    | .ok (g', v) => (g', .ok v)
    | .error e => (g, .error e)
  match c with
  | .register r => (g.addRegister r).map id .ok
  | .op name params qubits clbits => keep (g.addOp name params qubits clbits)
  | .caller name params qubits clbits => keep (g.addCaller name params qubits clbits)
  | .define name params qubits clbits => (g.addDefinition name params qubits clbits).map id .ok
  | .callee name params qubits clbits pindex isCaller =>
    keep (g.addCallee name params qubits clbits pindex isCaller)
  | .condition v clbits relation constant =>
    (g.addCondition v clbits relation constant).map id (·.map fun _ => v)

end QCircuit.Graph
