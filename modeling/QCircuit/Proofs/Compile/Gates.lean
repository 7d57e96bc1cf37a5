import QCircuit.Proofs.Compile.Operands
import QCircuit.Proofs.Schedule.Contents

/-!
The gates that a graph asks for.

Whatever list of vertices is compiled, a gate that is asked for has one of two forms: it is named by
an operation, or it is a measurement. Its operands are live bits, and its condition is that of an
operation of the graph.
-/

namespace QCircuit

open QCircuit.Graph

namespace Numbering

variable {g : Graph} {n : Numbering} {v : Nat}

lemma mapM_dense_lt {kind : BitKind} {bits dense : List Nat}
    (h : bits.mapM (n.dense kind v) = .ok dense) : ∀ d ∈ dense, d < n.live kind := by
  intro d hd
  obtain ⟨b, -, hb⟩ := exists_of_mapM h hd
  exact (dense_ok.mp hb).2

/-- The conditions that operations of the graph are under. -/
def Conditions (g : Graph) (n : Numbering) (condition : Option Condition) : Prop :=
  ∃ v w vertex o, g.vertex? w = some vertex ∧ vertex.operation? = some o ∧
    n.condition g v o = .ok condition

lemma Conditions.below {condition : Option Condition} (h : n.Conditions g condition) :
    ∀ c ∈ condition, ∀ b ∈ c.clbits, b < n.liveClbits := by
  obtain ⟨v, w, vertex, o, -, -, h⟩ := h
  unfold Numbering.condition at h
  split at h
  · obtain rfl := Except.ok.inj h
    simp
  · obtain ⟨bits, -, h⟩ := bind_eq_ok.mp h
    obtain ⟨dense, hdense, h⟩ := bind_eq_ok.mp h
    obtain rfl := Except.ok.inj h
    rintro c ⟨⟩
    exact mapM_dense_lt hdense

/-- A condition compares with the constant of an operation. -/
lemma Conditions.exists_comparison {condition : Option Condition} (h : n.Conditions g condition) :
    ∀ c ∈ condition, ∃ w vertex o, g.vertex? w = some vertex ∧ vertex.operation? = some o ∧
      o.comparison = some (c.relation, c.constant) := by
  obtain ⟨v, w, vertex, o, hvertex, ho, h⟩ := h
  unfold Numbering.condition at h
  split at h
  · obtain rfl := Except.ok.inj h
    simp
  · next relation constant hcomparison =>
    obtain ⟨bits, -, h⟩ := bind_eq_ok.mp h
    obtain ⟨dense, -, h⟩ := bind_eq_ok.mp h
    obtain rfl := Except.ok.inj h
    rintro c ⟨⟩
    exact ⟨w, vertex, o, hvertex, ho, hcomparison⟩

/-- The gates that operations of a graph ask for. -/
inductive Asks (g : Graph) (n : Numbering) : Gate → Prop where
  | named {name : String} {qubits : List Nat} (params : List Float) {condition : Option Condition}
    (kind : (Gate.Kind.ofName name).isMeasure = false) (live : ∀ q ∈ qubits, q < n.liveQubits)
    (under : n.Conditions g condition) : Asks g n (.named name qubits params condition)
  | measure {q c : Nat} {condition : Option Condition} (live : q < n.liveQubits)
    (target : c < n.liveClbits) (under : n.Conditions g condition) :
    Asks g n (.measure q c condition)

lemma Asks.qubits_lt {x : Gate} (h : n.Asks g x) : ∀ q ∈ x.qubits, q < n.liveQubits := by
  cases h with
  | named params hm hlive hunder => exact hlive
  | measure hlive htarget hunder => simpa [Gate.measure] using hlive

end Numbering

section Traces

variable {g : Graph} {n : Numbering}

/-- The condition of a call takes the place of those inside of its body, which are conditions of
the graph too. -/
lemma inner_conditions {c c' : CallContext} {v : Nat} {vertex : Vertex} {o : Operation}
    (hc : n.Conditions g c.condition) (hvertex : g.vertex? v = some vertex)
    (ho : vertex.operation? = some o) (h : c.inner g n v o = .ok c') :
    n.Conditions g c'.condition := by
  obtain ⟨-, -, hsome, hnone⟩ := inner_ok h
  rcases hcond : c.condition with _ | k
  · exact ⟨v, v, vertex, o, hvertex, ho, hnone hcond⟩
  · rw [hsome (by simp [hcond])]
    exact hc

/-- Expanding a call asks for gates of the graph. -/
lemma callTrace_asks {idle : List String} {site : Nat} {name : String} {c : CallContext}
    {cs : List Schedule.Call} (hc : n.Conditions g c.condition)
    (h : callTrace g n idle site name c = .ok cs) : ∀ k ∈ cs, ∀ x ∈ k.gates, n.Asks g x := by
  induction idle using idle_induct generalizing site name c cs with
  | call idle ih =>
    obtain ⟨r, css, -, hidle, hcss, rfl⟩ := callTrace_ok.mp h
    intro k hk
    obtain ⟨cs, hcs, hk⟩ := List.mem_flatten.mp hk
    obtain ⟨v, -, hpart⟩ := exists_of_mapM hcss hcs
    unfold partTrace at hpart
    split at hpart
    · next o hvertex =>
      obtain ⟨c', hc', hgate⟩ := bind_eq_ok.mp hpart
      unfold CallContext.gateCall at hgate
      split at hgate
      · simp at hgate
      · next hm =>
        obtain ⟨dense, hdense, hgate⟩ := bind_eq_ok.mp hgate
        obtain rfl := Except.ok.inj hgate
        obtain rfl := List.mem_singleton.mp hk
        intro x hx
        obtain rfl := List.mem_singleton.mp hx
        exact .named _ (by simpa using hm) (Numbering.mapM_dense_lt hdense)
          (inner_conditions hc hvertex rfl hc')
    · next o hvertex =>
      obtain ⟨c', hc', htrace⟩ := bind_eq_ok.mp hpart
      exact ih _ hidle (inner_conditions hc hvertex rfl hc') htrace k hk
    · obtain rfl := Except.ok.inj hpart
      simp at hk

/-- **A vertex asks for gates of the graph.** -/
theorem trace_asks {v : Nat} {cs : List Schedule.Call} (h : g.trace n v = .ok cs) :
    ∀ k ∈ cs, ∀ x ∈ k.gates, n.Asks g x := by
  obtain ⟨vertex, hvertex, h⟩ := bind_eq_ok.mp h
  rw [mapError_eq_ok, vertex_word] at hvertex
  cases vertex with
  | op o =>
    obtain ⟨condition, hcond, h⟩ := bind_eq_ok.mp h
    obtain ⟨dense, hdense, h⟩ := bind_eq_ok.mp h
    have hunder : n.Conditions g condition := ⟨v, _, _, o, hvertex, rfl, hcond⟩
    have hlive := Numbering.mapM_dense_lt hdense
    split at h
    · obtain ⟨clbits, targets, -, htargets, -, rfl⟩ := measureTrace_ok h
      intro k hk x hx
      obtain rfl := List.mem_singleton.mp hk
      obtain ⟨p, hp, rfl⟩ := List.mem_map.mp hx
      obtain ⟨hq, ht⟩ := List.of_mem_zip hp
      exact .measure (hlive _ hq) (Numbering.mapM_dense_lt htargets _ ht) hunder
    · next hm =>
      obtain ⟨params, -, h⟩ := bind_eq_ok.mp h
      obtain rfl := Except.ok.inj h
      intro k hk x hx
      obtain rfl := List.mem_singleton.mp hk
      obtain rfl := List.mem_singleton.mp hx
      exact .named params (by simpa using hm) hlive hunder
  | caller o =>
    obtain ⟨condition, hcond, h⟩ := bind_eq_ok.mp h
    obtain ⟨params, -, h⟩ := bind_eq_ok.mp h
    exact callTrace_asks ⟨v, _, _, o, hvertex, rfl, hcond⟩ h
  | _ =>
    obtain rfl := Except.ok.inj h
    simp

/-- **The gates of a circuit are those that its vertices ask for, and filling.** -/
theorem Graph.compileVertices_asks {vs : List Nat} {c : Circuit}
    (h : g.compileVertices vs = .ok c) : ∃ n, Numbering.ofVertices g vs = .ok n ∧
      (c.qubits = n.liveQubits ∧ c.clbits = n.liveClbits) ∧
        ∀ x ∈ c.gates, (∃ q < n.liveQubits, x = .identity q) ∨ n.Asks g x := by
  obtain ⟨n, css, s, hn, hcss, hs, hc⟩ := compileVertices_ok.mp h
  refine ⟨n, hn, Schedule.flatten_holds hs (fun q hq => .inl ⟨q, hq, rfl⟩) ?_ hc⟩
  intro k hk x hx
  obtain ⟨cs, hcs, hk⟩ := List.mem_flatten.mp hk
  obtain ⟨v, -, htrace⟩ := exists_of_mapM hcss hcs
  exact .inr (trace_asks htrace k hk x hx)

end Traces

end QCircuit
