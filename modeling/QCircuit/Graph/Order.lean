import QCircuit.Graph.Basic

/-!
The order in which the vertices of a graph can run.

Every vertex waits for the edges that lead to it. Those that wait for none are ready; the first one is
taken, and the edges that lead from it have arrived. What is left when no vertex is ready is on or
behind a cycle.
-/

namespace QCircuit

theorem length_erase_lt {rest : List Nat} {v : Nat} (hv : v ∈ rest) :
    (rest.erase v).length < rest.length := by
  have := List.length_pos_of_mem hv
  rw [List.length_erase_of_mem hv]
  omega

namespace Graph

/-- How many edges each position waits for, and the positions that are ready. -/
structure Waiting where
  degrees : Array Nat
  ready : List Nat
  deriving Repr

namespace Waiting

/-- An edge arrives at a position, which is ready when it was the last one. -/
def arrive (w : Waiting) (v : Nat) : Waiting :=
  match w.degrees[v]? with
  | some (d + 1) => ⟨w.degrees.setIfInBounds v d, if d = 0 then v :: w.ready else w.ready⟩
  | _ => w

/-- How many positions are ready or wait. -/
def pending (w : Waiting) : Nat := w.ready.length + w.degrees.countP (0 < ·)

theorem pending_arrive (w : Waiting) (v : Nat) : (w.arrive v).pending = w.pending := by
  unfold arrive
  split
  · next d hd =>
    obtain ⟨hv, hget⟩ := Array.getElem?_eq_some_iff.mp hd
    have hpos : 0 < w.degrees.countP (0 < ·) :=
      Array.countP_pos_iff.mpr ⟨w.degrees[v], Array.getElem_mem hv, by simp [hget]⟩
    simp only [pending, Array.setIfInBounds, hv, dite_true, Array.countP_set, hget]
    cases d <;> simp <;> omega
  · rfl

theorem pending_arrivals (w : Waiting) (vs : List Nat) :
    (vs.foldl arrive w).pending = w.pending := by
  induction vs generalizing w with
  | nil => rfl
  | cons v vs ih => rw [List.foldl_cons, ih, pending_arrive]

theorem pending_erase_lt {w : Waiting} {v : Nat} (hv : v ∈ w.ready) :
    { w with ready := w.ready.erase v }.pending < w.pending :=
  Nat.add_lt_add_right (length_erase_lt hv) _

/-- Takes the least position that is ready, again and again. -/
def drain (next : Nat → List Nat) (w : Waiting) : List Nat :=
  match h : w.ready.min? with
  | none => []
  | some v =>
    have := pending_erase_lt (List.min?_mem h)
    v :: drain next ((next v).foldl arrive { w with ready := w.ready.erase v })
termination_by w.pending
decreasing_by rwa [pending_arrivals]

end Waiting

/-- All positions wait for the edges that lead to them. -/
def waiting (g : Graph) : Waiting :=
  let degrees := (Array.range g.size).map fun v => (g.incoming v).length
  ⟨degrees, (List.range g.size).filter fun v => degrees[v]? = some 0⟩

/-- All positions, edges pointing forward. -/
def topologicalOrder (g : Graph) : Except GraphError (List Nat) :=
  let order := g.waiting.drain g.outgoing
  if order.length = g.size then .ok order else .error .cyclic

end Graph
end QCircuit
