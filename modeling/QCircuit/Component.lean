import QCircuit.Graph.Body
import QCircuit.Graph.Order

/-!
The parts of a graph that share no register.

A part holds what edges, in either direction, join to one of its registers. A call is also joined
to the classical registers that conditions in the called body read. What no register reaches, the
bodies of definitions, lies in no part.
-/

namespace QCircuit

/-- What can be reached from `agenda` through `unvisited` positions. -/
def reach (next : Nat → List Nat) (unvisited agenda reached : List Nat) : List Nat :=
  match agenda with
  | [] => reached
  | v :: agenda =>
    if h : v ∈ unvisited then
      have : (unvisited.erase v).length < unvisited.length := by
        rw [List.length_erase_of_mem h]
        have := List.length_pos_of_mem h
        omega
      reach next (unvisited.erase v) (next v ++ agenda) (v :: reached)
    else reach next unvisited agenda reached
termination_by (unvisited.length, agenda.length)

/-- The sets reached from the seeds, each seed that is still free giving a new one. -/
def partitionFrom (next : Nat → List Nat) : (seeds unvisited : List Nat) → List (List Nat)
  | [], _ => []
  | seed :: seeds, unvisited =>
    if seed ∈ unvisited then
      let part := reach next unvisited [seed] []
      part :: partitionFrom next seeds (unvisited.filter (· ∉ part))
    else partitionFrom next seeds unvisited

namespace Graph

/-- The positions of the classical registers, with them. -/
def clbitRegisters (g : Graph) : List (Nat × Register) :=
  g.vertices.zipIdx.filterMap fun
    | (.register r, v) => if r.kind = .clbit then some (v, r) else none
    | _ => none

/-- The calls, with the names that they call. -/
def callers (g : Graph) : List (Nat × String) :=
  g.vertices.zipIdx.filterMap fun
    | (.caller o, v) => some (v, o.name)
    | _ => none

/-- The pairs of a call and a classical register that its body reads. -/
def bodyLinks (g : Graph) : List (Nat × Nat) :=
  let registers := g.clbitRegisters
  if registers.isEmpty then []
  else
    g.callers.flatMap fun (caller, name) =>
      (g.bodyConbits name).filterMap fun bit =>
        (registers.find? fun (_, r) => r.declares bit).map fun (v, _) => (caller, v)

/-- What a position is joined to. -/
def joined (g : Graph) (links : List (Nat × Nat)) (v : Nat) : List Nat :=
  g.outgoing v ++ g.incoming v ++ links.filterMap fun (a, b) =>
    if a = v then some b else if b = v then some a else none

/-- The positions of the registers. -/
def registers (g : Graph) : List Nat :=
  (List.range g.size).filter fun v => (g.vertex? v).any Vertex.isRegister

/-- The parts of the graph, by their first register, each in the order given. -/
def decompose (g : Graph) (order : List Nat) : List (List Nat) :=
  let links := g.bodyLinks
  (partitionFrom (g.joined links) g.registers (List.range g.size)).map fun part =>
    order.filter (· ∈ part)

end Graph
end QCircuit
