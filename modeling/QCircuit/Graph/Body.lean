import QCircuit.Graph.Basic

/-!
The bodies of definitions.

A body is walked depth first from its root, through calls and gates of definitions only; the
reverse of the order in which vertices are left respects their dependencies.
-/

namespace QCircuit.Graph

/-- A step of a walk that is still to be made. -/
inductive Visit where
  | enter (v : Nat)
  | leave (v : Nat)
  deriving DecidableEq, Repr

/-- Walks through `unvisited` vertices; `done` are those left so far, last one first. -/
def walk (next : Nat → List Nat) (unvisited : List Nat) (agenda : List Visit) (done : List Nat) :
    List Nat :=
  match agenda with
  | [] => done
  | .leave v :: agenda => walk next unvisited agenda (v :: done)
  | .enter v :: agenda =>
    if h : v ∈ unvisited then
      have : (unvisited.erase v).length < unvisited.length := by
        rw [List.length_erase_of_mem h]
        have := List.length_pos_of_mem h
        omega
      walk next (unvisited.erase v) ((next v).map .enter ++ .leave v :: agenda) done
    else walk next unvisited agenda done
termination_by (unvisited.length, agenda.length)

/-- The positions that can stand in a body. -/
def calls (g : Graph) : List Nat :=
  (List.range g.size).filter fun v => (g.vertex? v).any Vertex.isCall

/-- The body below a position, in the order of execution. -/
def bodyFrom (g : Graph) (root : Nat) : List Nat :=
  walk g.outgoing (g.calls.erase root) ((g.outgoing (root % 4294967296)).map .enter) []

def bodyOrder (g : Graph) (root : Nat) : Except GraphError (List Nat) :=
  (g.locate root).map fun _ => g.bodyFrom root

/-- A definition to open, or a vertex of an open one. -/
inductive Lookup where
  | name (s : String)
  | vertex (v : Nat)
  deriving DecidableEq, Repr

/-- What an agenda costs: a vertex opens at most one name, and so counts more. -/
def cost : List Lookup → Nat
  | [] => 0
  | .name _ :: agenda => cost agenda + 1
  | .vertex _ :: agenda => cost agenda + 2

/-- The definition that a call site opens. -/
def opens (g : Graph) (v : Nat) : List Lookup :=
  match g.vertex? v with
  | some (.caller o) => [.name o.name]
  | _ => []

theorem cost_opens_append (g : Graph) (v : Nat) (agenda : List Lookup) :
    cost (g.opens v ++ agenda) < cost agenda + 2 := by
  unfold opens
  split <;> simp [cost]

/-- The body of the first definition of this name. -/
def bodyOf (g : Graph) (name : String) : List Nat :=
  ((g.findDefinition? name).map g.bodyFrom).getD []

/-- Collects condition bits; each name in `unseen` is opened once. -/
def collect (g : Graph) (unseen : List String) (agenda : List Lookup) (bits : List Nat) :
    List Nat :=
  match agenda with
  | [] => bits
  | .vertex v :: agenda =>
    collect g unseen (g.opens v ++ agenda) (bits ++ g.bitsInto v .conbit)
  | .name s :: agenda =>
    if h : s ∈ unseen then
      have : (unseen.erase s).length < unseen.length := by
        rw [List.length_erase_of_mem h]
        have := List.length_pos_of_mem h
        omega
      collect g (unseen.erase s) ((g.bodyOf s).map .vertex ++ agenda) bits
    else collect g unseen agenda bits
termination_by (unseen.length, cost agenda)
decreasing_by
  · exact Prod.Lex.right _ (g.cost_opens_append v agenda)
  · exact Prod.Lex.left _ _ this
  · exact Prod.Lex.right _ (Nat.lt_succ_self _)

/-- The global clbits that conditions in the body of `name` read, nested calls included. -/
def bodyConbits (g : Graph) (name : String) : List Nat := g.collect g.definedNames [.name name] []

end QCircuit.Graph
