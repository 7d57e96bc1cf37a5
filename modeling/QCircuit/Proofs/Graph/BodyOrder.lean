import Mathlib
import QCircuit.Proofs.Graph.Atomicity
import QCircuit.Proofs.Graph.Ownership

/-!
The order of a body.

What a depth-first walk enters while a vertex is open can be reached from that vertex. In a graph
without cycles it is therefore never an open vertex again, and so everything that a vertex leads to
is left before it is, whatever the edges are.
-/

namespace QCircuit.Graph

/-- No path leads back to its start. -/
def Acyclic (g : Graph) : Prop := ∀ v, ¬ Relation.TransGen g.Leads v v

/-- Where something grows along every edge there is no cycle. -/
lemma acyclic_of_rank {g : Graph} (rank : Nat → Nat) (h : ∀ u v, g.Leads u v → rank u < rank v) :
    g.Acyclic := by
  intro v hcycle
  have hpath : Relation.TransGen (fun u w => rank u < rank w) v v :=
    Relation.TransGen.mono h v v hcycle
  have htrans : IsTrans Nat fun u w => rank u < rank w := ⟨fun _ _ _ => Nat.lt_trans⟩
  rw [Relation.transGen_eq_self] at hpath
  exact Nat.lt_irrefl _ hpath

/-- Edges between ascending positions close no cycle. -/
lemma acyclic_of_ascending {g : Graph} (h : ∀ e ∈ g.edges, e.source < e.target) : g.Acyclic := by
  refine acyclic_of_rank id ?_
  rintro _ _ ⟨e, he, rfl, rfl⟩
  exact h e he

section Body

variable {g : Graph} (h : g.Acyclic)
include h

lemma Acyclic.isStrictOrder : IsStrictOrder Nat (Relation.TransGen g.Leads) where
  irrefl := h
  trans _ _ _ := .trans

/-- A walk along the edges lists every vertex once, and before its successors. -/
lemma Acyclic.walk_outgoing (vs : List Nat) :
    (walk g.outgoing g.calls (vs.map .enter) []).Nodup ∧
      Settled g.outgoing g.calls (walk g.outgoing g.calls (vs.map .enter) []) := by
  have := h.isStrictOrder
  have hwalking := walking_enter (Relation.TransGen g.Leads) g.outgoing g.calls vs
  have hup : ∀ v, ∀ w ∈ g.outgoing v, Relation.TransGen g.Leads v w :=
    fun v w hw => .single (mem_outgoing.mp hw)
  exact ⟨hwalking.walk_nodup (List.nodup_range.filter _) hup, hwalking.walk_settled hup⟩

/-- **A body is ordered by its dependencies.** In a graph without cycles it lists once each vertex
that the definition leads to through calls and gates of definitions; and where an edge joins two of
them, its source comes before its target. -/
theorem Acyclic.bodyOrder_ok {r : Nat} (hr : r < 4294967296) {name : String}
    {params qubits clbits : Nat}
    (hroot : g.vertex? r = some (.define name params qubits clbits)) :
    ∃ vs, g.bodyOrder r = .ok vs ∧ vs.Nodup ∧ (∀ v, v ∈ vs ↔ v ≠ r ∧ g.Reaches r v) ∧
      ∀ u ∈ vs, ∀ v ∈ vs, g.Leads u v → [u, v].Sublist vs := by
  have hcall : (g.vertex? r).any Vertex.isCall = false := by simp [hroot, Vertex.isCall]
  have hlocate : g.locate r = .ok r := by
    rw [locate, Nat.mod_eq_of_lt hr, if_pos (lt_size_of_vertex hroot)]
  obtain ⟨hnodup, hsettled⟩ := h.walk_outgoing (g.outgoing r)
  rw [← bodyFrom_eq_walk hr hcall] at hnodup hsettled
  have hcalls : ∀ v ∈ g.bodyFrom r, v ∈ g.calls := by
    intro v hv
    obtain ⟨u, -, hstep⟩ := Relation.TransGen.tail'_iff.mp ((mem_bodyFrom_iff hr hcall).mp hv)
    exact mem_calls.mpr hstep.2
  refine ⟨g.bodyFrom r, by rw [bodyOrder, hlocate]; rfl, hnodup, fun v => ?_, ?_⟩
  · rw [Reaches, Relation.reflTransGen_iff_eq_or_transGen, ← mem_bodyFrom_iff hr hcall]
    constructor
    · intro hv
      refine ⟨?_, Or.inr hv⟩
      rintro rfl
      simpa [hcall] using mem_calls.mp (hcalls v hv)
    · rintro ⟨hne, hself | hv⟩
      · exact absurd hself hne
      · exact hv
  · intro u hu v hv hedge
    exact hsettled.sublist hu (mem_outgoing.mpr hedge) (hcalls v hv)

end Body

/-- A definition whose gates fork and join; the gate that joins is tied twice to a call. -/
def forkCalls : List Call :=
  [.define "fork" 0 2 0, .callee "H" [] [0] [] [] false, .callee "X" [] [1] [] [] false,
    .callee "CNOT" [] [0, 1] [] [] false, .callee "pair" [] [0, 1] [] [] true]

/-- The later of the two gates comes first, and both come before what they lead to. -/
theorem fork_bodyOrder : (empty.run forkCalls).Acyclic ∧
    (empty.run forkCalls).bodyOrder 0 = .ok [2, 1, 3, 4] ∧
      [1, 3].Sublist [2, 1, 3, 4] ∧ (empty.run forkCalls).Reaches 0 4 := by
  have hacyclic : (empty.run forkCalls).Acyclic := acyclic_of_ascending (by decide)
  have horder : (empty.run forkCalls).bodyOrder 0 = .ok [2, 1, 3, 4] := by cbv
  have hroot : (empty.run forkCalls).vertex? 0 = some (.define "fork" 0 2 0) := rfl
  obtain ⟨vs, hvs, -, hmem, hedge⟩ := hacyclic.bodyOrder_ok (by decide) hroot
  obtain rfl := Except.ok.inj (horder.symm.trans hvs)
  exact ⟨hacyclic, horder, hedge 1 (by decide) 3 (by decide) (mem_outgoing.mp (by decide)),
    ((hmem 4).mp (by decide)).2⟩

end QCircuit.Graph
