import QCircuit.Proofs.Compile.Operands
import QCircuit.Proofs.Graph.Parts
import QCircuit.Proofs.Schedule.Blocks

/-!
Numberings that agree up to a shift.

When one numbering gives the bits that a vertex uses the indices of another, moved by fixed
numbers, the vertex makes the same calls under both, on bits that are moved in this way. The bits
that a call uses are those of its own vertex and the ones that conditions in the called bodies read.
-/

namespace QCircuit

open QCircuit.Graph

/-- The bits of one kind. -/
def Extent.of (d : Extent) : BitKind → Nat
  | .qubit => d.qubits
  | .clbit => d.clbits

/-- On the bits in `P` the numbering `n` is `m`, moved by `d`. -/
def Numbering.Raises (d : Extent) (m n : Numbering) (P : BitKind → Nat → Prop) : Prop :=
  ∀ kind v b, P kind b → Lifts (d.of kind + ·) (m.dense kind v b) (n.dense kind v b)

/-- What a call hands on, on moved bits; its qubits are not dense yet. -/
def CallContext.raise (d : Extent) (c : CallContext) : CallContext :=
  { c with condition := c.condition.map (·.raise d) }

lemma Gate.raise_named (d : Extent) (name : String) (qubits : List Nat) (params : List Float)
    (condition : Option Condition) : (Gate.named name qubits params condition).raise d =
      Gate.named name (qubits.map (d.qubits + ·)) params (condition.map (·.raise d)) := by
  simp [Gate.named, Gate.raise]

section Raising

variable {d : Extent} {m n : Numbering} {P : BitKind → Nat → Prop} (hraise : m.Raises d n P)
  {g : Graph} (hsize : g.size ≤ 4294967296)

include hraise in
lemma Numbering.Raises.mapM_dense {kind : BitKind} {v : Nat} {bits : List Nat}
    (h : ∀ b ∈ bits, P kind b) :
    Lifts (List.map (d.of kind + ·)) (bits.mapM (m.dense kind v)) (bits.mapM (n.dense kind v)) :=
  .mapM fun b hb => hraise kind v b (h b hb)

include hraise hsize in
lemma condition_raise {v : Nat} {o : Operation} (hv : v < g.size)
    (hbits : ∀ b ∈ g.bitsInto v .conbit, P .clbit b) :
    Lifts (Option.map (Condition.raise d)) (m.condition g v o) (n.condition g v o) := by
  unfold Numbering.condition
  split
  · exact .ok _ _
  · refine .bind_same fun bits hb => ?_
    rw [mapError_eq_ok, Graph.incidentBits_ok hsize hv] at hb
    obtain rfl := Except.ok.inj hb
    exact (hraise.mapM_dense hbits).bind fun dense _ => .ok _ _

include hraise hsize in
lemma inner_raise {c : CallContext} {v : Nat} {o : Operation} (hv : v < g.size)
    (hbits : ∀ b ∈ g.bitsInto v .conbit, P .clbit b) :
    Lifts (CallContext.raise d) (c.inner g m v o) ((c.raise d).inner g n v o) := by
  refine .bind_same fun qubits _ => .bind_same fun params _ => ?_
  cases hc : c.condition with
  | some cond =>
    simp only [CallContext.raise, hc, Option.map_some]
    exact .ok _ _
  | none =>
    simp only [CallContext.raise, hc, Option.map_none]
    exact (condition_raise hraise hsize hv hbits).bind fun condition _ => .ok _ _

/-- What stands behind slots is among the qubits of the call. -/
lemma mem_of_mapM_slots {slots qs qs' : List Nat}
    (h : (slots.mapM fun slot => qs[slot]?) = some qs') : ∀ q ∈ qs', q ∈ qs := by
  intro q hq
  obtain ⟨slot, -, hslot⟩ := exists_of_forall₂ (mapM_eq_some_iff.mp h).flip hq
  exact List.mem_of_getElem? hslot

/-- What a part is handed are qubits of the call. -/
lemma inner_subset {c c' : CallContext} {v : Nat} {o : Operation} (h : c.inner g m v o = .ok c') :
    ∀ q ∈ c'.qubits, q ∈ c.qubits :=
  mem_of_mapM_slots (inner_ok h).1

include hraise in
lemma gateCall_raise {c : CallContext} {v : Nat} {o : Operation}
    (hq : ∀ q ∈ c.qubits, P .qubit q) :
    Lifts (List.map (Schedule.Call.raise d)) (c.gateCall m v o) ((c.raise d).gateCall n v o) := by
  unfold CallContext.gateCall
  split
  · exact .error _ _ _
  · refine (hraise.mapM_dense hq).bind fun dense _ => ?_
    have hgate := Gate.raise_named d o.name dense c.params c.condition
    simp only [Extent.of, CallContext.raise, ← hgate]
    exact .ok _ _

include hraise hsize in
/-- A part of a body makes the same calls, on moved bits, if the calls that it makes do. -/
lemma partTrace_raise
    {call call' : Nat → String → CallContext → Except CompileError (List Schedule.Call)}
    {c : CallContext} (hq : ∀ q ∈ c.qubits, P .qubit q) {v : Nat}
    (hbits : ∀ b ∈ g.bitsInto v .conbit, P .clbit b)
    (hcall : ∀ o, g.vertex? v = some (.caller o) → ∀ c', (∀ q ∈ c'.qubits, P .qubit q) →
      Lifts (List.map (Schedule.Call.raise d)) (call v o.name c') (call' v o.name (c'.raise d))) :
    Lifts (List.map (Schedule.Call.raise d)) (partTrace g m call c v)
      (partTrace g n call' (c.raise d) v) := by
  have hinner : ∀ o c', c.inner g m v o = .ok c' → ∀ q ∈ c'.qubits, P .qubit q :=
    fun o c' hc' q hq' => hq q (inner_subset hc' q hq')
  unfold partTrace
  split
  · next o hvertex =>
    refine (inner_raise hraise hsize (lt_size_of_vertex hvertex) hbits).bind fun c' hc' => ?_
    exact gateCall_raise hraise (hinner o c' hc')
  · next o hvertex =>
    refine (inner_raise hraise hsize (lt_size_of_vertex hvertex) hbits).bind fun c' hc' => ?_
    exact hcall o hvertex c' (hinner o c' hc')
  · exact .ok _ _

include hraise hsize in
/-- **Expanding a call makes the same calls, on moved bits**, if the bodies that it opens read bits
in `P` only. -/
theorem callTrace_raise {opened : String → Prop}
    (hopened : ∀ s, opened s → ∀ v ∈ g.bodyOf s, (∀ b ∈ g.bitsInto v .conbit, P .clbit b) ∧
      ∀ o, g.vertex? v = some (.caller o) → opened o.name)
    {idle : List String} {site : Nat} {name : String} {c : CallContext} (hname : opened name)
    (hq : ∀ q ∈ c.qubits, P .qubit q) :
    Lifts (List.map (Schedule.Call.raise d)) (callTrace g m idle site name c)
      (callTrace g n idle site name (c.raise d)) := by
  induction idle using idle_induct generalizing site name c with
  | call idle ih =>
    rw [callTrace, callTrace]
    cases hfind : g.findDefinition? name with
    | none => exact .error _ _ _
    | some r =>
      have hbody : g.bodyFrom r = g.bodyOf name := by simp [bodyOf, hfind]
      by_cases hidle : name ∈ idle
      · have hparts : Lifts (List.map (List.map (Schedule.Call.raise d)))
            ((g.bodyFrom r).mapM (partTrace g m (callTrace g m (idle.erase name)) c))
            ((g.bodyFrom r).mapM
              (partTrace g n (callTrace g n (idle.erase name)) (c.raise d))) := by
          refine .mapM fun v hv => ?_
          obtain ⟨hbits, hcalls⟩ := hopened name hname v (hbody ▸ hv)
          exact partTrace_raise hraise hsize hq hbits fun o hvertex c' hq' =>
            ih name hidle (hcalls o hvertex) hq'
        simp only [hidle, dite_true]
        refine hparts.bind fun css _ => ?_
        rw [← List.map_flatten]
        exact .ok _ _
      · simp only [hidle, dite_false]
        exact .error _ _ _

/-- The bits that a vertex uses, and those that the bodies it opens read, are in `P`. -/
structure Graph.Uses (g : Graph) (P : BitKind → Nat → Prop) (v : Nat) : Prop where
  qubits : ∀ q ∈ g.bitsInto v .qubit, P .qubit q
  clbits : ∀ b ∈ g.bitsInto v .clbit, P .clbit b
  conbits : ∀ b ∈ g.bitsInto v .conbit, P .clbit b
  bodies : ∀ o, g.vertex? v = some (.caller o) → ∀ b ∈ g.bodyConbits o.name, P .clbit b

include hraise hsize in
lemma measureTrace_raise {v : Nat} {o : Operation} {qubits : List Nat}
    {condition : Option Condition} (hv : v < g.size)
    (hbits : ∀ b ∈ g.bitsInto v .clbit, P .clbit b) :
    Lifts (List.map (Schedule.Call.raise d)) (g.measureTrace m v o qubits condition)
      (g.measureTrace n v o (qubits.map (d.qubits + ·)) (condition.map (·.raise d))) := by
  refine .bind_same fun clbits hb => ?_
  rw [mapError_eq_ok, Graph.incidentBits_ok hsize hv] at hb
  obtain rfl := Except.ok.inj hb
  rw [List.length_map]
  split
  · refine (hraise.mapM_dense hbits).bind fun targets _ => ?_
    rw [List.zip_map]
    exact .ok _ _
  · exact .error _ _ _

include hraise hsize in
/-- **A vertex makes the same calls, on moved bits.** -/
theorem trace_raise (hsup : g.Supplied) {v : Nat} (hv : v < g.size) (huses : g.Uses P v) :
    Lifts (List.map (Schedule.Call.raise d)) (g.trace m v) (g.trace n v) := by
  refine .bind_same fun vertex hvertex => ?_
  rw [mapError_eq_ok, vertex_ok hsize hv] at hvertex
  have hq : ∀ o, vertex.operation? = some o → ∀ q ∈ o.qubits, P .qubit q := by
    intro o ho q hq
    rw [← hsup.bits hvertex ho] at hq
    exact huses.qubits q hq
  cases vertex with
  | op o =>
    refine (condition_raise hraise hsize hv huses.conbits).bind fun condition _ => ?_
    refine (hraise.mapM_dense (hq o rfl)).bind fun qubits _ => ?_
    split
    · exact measureTrace_raise hraise hsize hv huses.clbits
    · refine .bind_same fun params _ => ?_
      rw [Extent.of, ← Gate.raise_named]
      exact .ok _ _
  | caller o =>
    refine (condition_raise hraise hsize hv huses.conbits).bind fun condition _ => ?_
    refine .bind_same fun params _ => ?_
    obtain ⟨opened, hname, hopened⟩ := g.bodyConbits_closed o.name
    refine callTrace_raise hraise hsize (fun s hs w hw => ?_) hname (hq o rfl)
    obtain ⟨hbits, hcalls⟩ := hopened s hs w hw
    exact ⟨fun b hb => huses.bodies o hvertex b (hbits b hb), hcalls⟩
  | _ => exact .ok _ _

end Raising

end QCircuit
