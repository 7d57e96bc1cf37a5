import QCircuit.Proofs.Graph.Atomicity

/-!
What builder calls give to the vertices of a graph.

In whatever order they are made, and whether they fail or not, builder calls bring the qubits of a
gate or call in by edges, in order. A qubit that is named twice comes the second time from the vertex
itself, and such a loop leaves the graph without an order. Conditions may be put on any vertex at any
time, also backwards; they bring in condition bits only.
-/

namespace QCircuit

namespace Graph

/-- The qubits that a position names, if it is a gate or a call. -/
def operands? (g : Graph) (v : Nat) : Option (List Nat) :=
  ((g.vertex? v).bind Vertex.operation?).map (·.qubits)

lemma operands?_eq_some {g : Graph} {v : Nat} {qs : List Nat} : g.operands? v = some qs ↔
    ∃ vertex o, g.vertex? v = some vertex ∧ vertex.operation? = some o ∧ o.qubits = qs := by
  simp only [operands?, Option.map_eq_some_iff, Option.bind_eq_some_iff]
  constructor
  · rintro ⟨o, ⟨vertex, hv, ho⟩, hqs⟩
    exact ⟨vertex, o, hv, ho, hqs⟩
  · rintro ⟨vertex, o, hv, ho, hqs⟩
    exact ⟨o, ⟨vertex, hv, ho⟩, hqs⟩

/-! ### What a call does -/

/-- What a condition does to a graph, set or given up: condition bits are brought to old vertices,
and no vertex gets other qubits. -/
structure Annotates (g g' : Graph) : Prop where
  size : g'.size = g.size
  operands : ∀ v, g'.operands? v = g.operands? v
  edges : ∃ es, g'.edges.toList = g.edges.toList ++ es ∧
    ∀ e ∈ es, e.target < g.size ∧ Edge.on .qubit e = none

namespace Annotates

lemma refl (g : Graph) : Annotates g g := ⟨rfl, fun _ => rfl, [], by simp, by simp⟩

lemma trans {g g' g'' : Graph} (h₁ : Annotates g g') (h₂ : Annotates g' g'') :
    Annotates g g'' := by
  obtain ⟨es, hes, hon⟩ := h₁.edges
  obtain ⟨es', hes', hon'⟩ := h₂.edges
  refine ⟨h₂.size.trans h₁.size, fun v => (h₂.operands v).trans (h₁.operands v), es ++ es',
    by rw [hes', hes, List.append_assoc], fun e he => ?_⟩
  rcases List.mem_append.mp he with he | he
  · exact hon e he
  · exact h₁.size ▸ hon' e he

end Annotates

section Condition

variable {g g' : Graph} {v : Nat} (hv : v < g.size)

include hv in
lemma link?_annotates {leaf : Leaf} (h : g.link? leaf v .conbit = some g') : Annotates g g' := by
  obtain ⟨u, -, rfl⟩ := Option.map_eq_some_iff.mp h
  refine ⟨rfl, fun _ => rfl, [⟨u, v, some (.conbit, leaf.id)⟩], by simp [connect, advance], ?_⟩
  intro e he
  obtain rfl := List.mem_singleton.mp he
  exact ⟨hv, rfl⟩

include hv in
lemma linkCondition_annotates (clbits : List Nat) :
    Annotates g (g.linkCondition v clbits).1 := by
  induction clbits generalizing g with
  | nil => exact .refl g
  | cons c clbits ih =>
    rw [linkCondition]
    split
    · exact .refl g
    · next g₁ hlink =>
      have hstep := link?_annotates hv hlink
      exact hstep.trans (ih (hstep.size ▸ hv))

include hv in
lemma linkFromRoot_annotates (root : Nat) (clbits : List Nat) :
    Annotates g (g.linkFromRoot root v clbits) := by
  rw [linkFromRoot_eq]
  refine ⟨rfl, fun _ => rfl, clbits.map fun c => ⟨root, v, some (.conbit, c)⟩, by simp, ?_⟩
  intro e he
  obtain ⟨c, -, rfl⟩ := List.mem_map.mp he
  exact ⟨hv, rfl⟩

lemma setComparison_annotates (g : Graph) (v : Nat) (relation : Relation) (constant : Int) :
    Annotates g (g.setComparison v relation constant) := by
  refine ⟨by simp [Graph.size, setComparison], fun w => ?_, [], by simp [setComparison], by simp⟩
  unfold operands? vertex? setComparison
  rw [Array.getElem?_modify]
  split
  · rcases g.nodes[w]? with _ | ⟨vertex, root⟩
    · rfl
    · cases vertex <;> rfl
  · rfl

/-- **A condition names no qubits**, whether it can be set or not. -/
lemma addCondition_annotates (g : Graph) (id : Nat) (clbits : List Nat) (relation : Relation)
    (constant : Int) : Annotates g (g.addCondition id clbits relation constant).1 := by
  unfold addCondition
  dsimp only
  split
  · exact .refl g
  · next node hnode =>
    have hv := lt_size_of_node hnode
    split
    · exact .refl g
    · split
      · next root _ =>
        exact (linkFromRoot_annotates hv root clbits).trans (setComparison_annotates ..)
      · have hlink := linkCondition_annotates hv clbits
        split
        · next heq =>
          rw [heq] at hlink
          exact hlink.trans (setComparison_annotates ..)
        · next heq =>
          rw [heq] at hlink
          exact hlink

end Condition

/-- A gate or call that a builder call attaches is added to the graph, or else nothing is done. -/
lemma attach_cases {g g' : Graph} {scope : Scope} {wrap : Operation → Vertex} {op : Operation}
    {clbits : List Nat} (hwrap : Document.Wraps wrap)
    (h : (match g.attach scope wrap op clbits with
      | .ok (g', v) => (g', .ok v)
      | .error e => (g, .error e) : Graph × Except GraphError Nat).1 = g') :
    g' = g ∨ ∃ x : Site, ∃ o, x.vertex.operation? = some o ∧ x.qubits = o.qubits ∧
      (∀ b ∈ x.links (x.root g), g.knows b.1) ∧ g' = x.addTo g := by
  subst h
  cases hadd : g.attach scope wrap op clbits with
  | error e => exact Or.inl rfl
  | ok p =>
    obtain ⟨hknown, hg'⟩ := attach_addTo rfl hadd
    exact Or.inr ⟨_, op, hwrap.operation? op, rfl, hknown, hg'⟩

/-- **What a builder call does to a graph**: it declares a register, starts a definition, sets a
condition as far as that goes, does nothing, or adds a gate or a call. -/
theorem perform_cases (g : Graph) (c : Call) :
    (∃ r : Register, (g.perform c).1 = r.addTo g) ∨
      (∃ d : Document.Head, (g.perform c).1 = d.addTo g) ∨
      (∃ id clbits relation constant,
        (g.perform c).1 = (g.addCondition id clbits relation constant).1) ∨
      (g.perform c).1 = g ∨
      ∃ x : Site, ∃ o, x.vertex.operation? = some o ∧ x.qubits = o.qubits ∧
        (∀ b ∈ x.links (x.root g), g.knows b.1) ∧ (g.perform c).1 = x.addTo g := by
  cases c with
  | register r => exact Or.inl ⟨r, Document.addRegister_eq g r⟩
  | define name params qubits clbits =>
    obtain ⟨d, hd⟩ : ∃ d : Document.Head, d = ⟨name, params, qubits, clbits⟩ := ⟨_, rfl⟩
    refine Or.inr (Or.inl ⟨d, ?_⟩)
    rw [← Document.addDefinition_eq, hd]
    rfl
  | condition id clbits relation constant =>
    exact Or.inr (Or.inr (Or.inl ⟨id, clbits, relation, constant, rfl⟩))
  | op name params qubits clbits =>
    exact Or.inr (Or.inr (Or.inr (attach_cases Document.wraps_op rfl)))
  | caller name params qubits clbits =>
    exact Or.inr (Or.inr (Or.inr (attach_cases Document.wraps_caller rfl)))
  | callee name params qubits clbits pindex isCaller =>
    have hwrap : Document.Wraps (if isCaller then .caller else .callee) := by
      split
      · exact Document.wraps_caller
      · exact Document.wraps_callee
    exact Or.inr (Or.inr (Or.inr (attach_cases hwrap rfl)))

/-! ### Qubits come by edges -/

/-- Edges lead to vertices, and bring to each gate and call the qubits that it names. Where a qubit
comes twice there is a loop. -/
structure Fed (g : Graph) : Prop where
  target : ∀ e ∈ g.edges, e.target < g.size
  bits : ∀ v qs, g.operands? v = some qs → g.bitsInto v .qubit = qs
  nodup : ∀ v, (g.bitsInto v .qubit).Nodup ∨ ∃ e ∈ g.edges, e.source = v ∧ e.target = v

lemma fed_empty : Fed empty := by
  refine ⟨by simp [empty], by simp [empty, operands?, vertex?], fun v => Or.inl ?_⟩
  simp [empty, bitsInto]

/-- A vertex beyond the old ones has new edges only. -/
lemma Fed.bitsInto_new {g g' : Graph} (hg : Fed g) {es : List Edge}
    (hes : g'.edges.toList = g.edges.toList ++ es) {v : Nat} (hv : g.size ≤ v) (wire : Wire) :
    g'.bitsInto v wire = (es.filter (·.target = v)).filterMap (Edge.on wire) := by
  have hold : g.edges.toList.filter (·.target = v) = [] := by
    refine List.filter_eq_nil_iff.mpr fun e he => ?_
    have := hg.target e (Array.mem_toList_iff.mp he)
    simp only [decide_eq_true_eq]
    omega
  rw [bitsInto_eq, edgesInto, hes, List.filter_append, hold, List.nil_append]

/-- A graph that has grown is fed if its new vertices are. -/
lemma Fed.extends {g g' : Graph} (hg : Fed g) (hext : Extends g g')
    (htarget : ∀ e ∈ g'.edges, e.target < g'.size)
    (hbits : ∀ v qs, g.size ≤ v → g'.operands? v = some qs → g'.bitsInto v .qubit = qs)
    (hnodup : ∀ v, g.size ≤ v → (g'.bitsInto v .qubit).Nodup ∨
      ∃ e ∈ g'.edges, e.source = v ∧ e.target = v) : Fed g' := by
  refine ⟨htarget, fun v qs hqs => ?_, fun v => ?_⟩
  · rcases Nat.lt_or_ge v g.size with hv | hv
    · rw [operands?, hext.vertex?_eq hv] at hqs
      rw [hext.bitsInto_eq hv]
      exact hg.bits v qs hqs
    · exact hbits v qs hv hqs
  · rcases Nat.lt_or_ge v g.size with hv | hv
    · rw [hext.bitsInto_eq hv]
      exact (hg.nodup v).imp id fun ⟨e, he, hends⟩ => ⟨e, hext.mem_edges he, hends⟩
    · exact hnodup v hv

lemma Fed.register {g : Graph} (hg : Fed g) (r : Register) : Fed (r.addTo g) := by
  have hext := r.extends_addTo g
  have hnone : ∀ v, g.size ≤ v → (r.addTo g).bitsInto v .qubit = [] := by
    intro v hv
    have hedges : (r.addTo g).edges.toList = g.edges.toList ++
        (List.range r.count).map fun i => ⟨g.size, g.size + 1 + i, none⟩ := by
      simp [Register.addTo]
    rw [hg.bitsInto_new hedges hv]
    refine List.filterMap_eq_nil_iff.mpr fun e he => ?_
    obtain ⟨i, -, rfl⟩ := List.mem_map.mp (List.mem_of_mem_filter he)
    rfl
  refine hg.extends hext ?_ (fun v qs hv hqs => ?_) fun v hv => Or.inl (by simp [hnone v hv])
  · intro e he
    rw [Register.size_addTo]
    rcases Register.mem_edges he with he | ⟨i, hi, rfl⟩
    · have := hg.target e he
      omega
    · simp only
      omega
  · obtain ⟨vertex, o, hvertex, ho, -⟩ := operands?_eq_some.mp hqs
    obtain ⟨node, hnode, rfl⟩ := Option.map_eq_some_iff.mp hvertex
    rcases r.node_addTo g hv hnode with ⟨-, rfl⟩ | ⟨i, -, -, rfl⟩
    · simp [Vertex.operation?] at ho
    · cases hk : r.kind <;> simp [hk, Vertex.init, Vertex.operation?] at ho

lemma Fed.head {g : Graph} (hg : Fed g) (d : Document.Head) : Fed (d.addTo g) := by
  have hnone : ∀ v, g.size ≤ v → (d.addTo g).bitsInto v .qubit = [] := by
    intro v hv
    have hedges : (d.addTo g).edges.toList = g.edges.toList ++ [] := by
      simp [Document.Head.addTo]
    rw [hg.bitsInto_new hedges hv]
    rfl
  refine hg.extends (d.extends_addTo g) ?_ (fun v qs hv hqs => ?_)
    fun v hv => Or.inl (by simp [hnone v hv])
  · intro e he
    rw [Document.Head.size_addTo]
    exact Nat.lt_succ_of_lt (hg.target e he)
  · obtain ⟨vertex, o, hvertex, ho, -⟩ := operands?_eq_some.mp hqs
    have hlt := lt_size_of_vertex hvertex
    rw [Document.Head.size_addTo] at hlt
    obtain rfl : v = g.size := by omega
    rw [vertex?, Document.Head.node_root] at hvertex
    obtain rfl := Option.some.inj hvertex
    simp [Vertex.operation?] at ho

lemma Fed.site {g : Graph} (hg : Fed g) {x : Site} {o : Operation}
    (ho : x.vertex.operation? = some o) (hqubits : x.qubits = o.qubits)
    (hknown : ∀ b ∈ x.links (x.root g), g.knows b.1) : Fed (x.addTo g) := by
  have hedges : (x.addTo g).edges.toList = g.edges.toList ++ x.edges g := by simp [Site.addTo]
  have hself : (x.addTo g).bitsInto g.size .qubit = x.qubits := by
    rw [hg.bitsInto_new hedges (Nat.le_refl _),
      List.filter_eq_self.mpr fun e he => by simp [Site.target_edges he],
      (Site.filterMap_edges hknown).1]
  have hnone : ∀ v, g.size ≤ v → v ≠ g.size → (x.addTo g).bitsInto v .qubit = [] := by
    intro v hv hne
    rw [hg.bitsInto_new hedges hv, List.filter_eq_nil_iff.mpr fun e he => by
      simpa [Site.target_edges he] using Ne.symm hne]
    rfl
  refine hg.extends (x.extends_addTo g) ?_ (fun v qs hv hqs => ?_) fun v hv => ?_
  · intro e he
    rw [Site.size_addTo]
    rcases Site.mem_edges.mp he with he | he
    · exact Nat.lt_succ_of_lt (hg.target e he)
    · rw [Site.target_edges he]
      exact Nat.lt_succ_self _
  · obtain ⟨vertex, o', hvertex, ho', rfl⟩ := operands?_eq_some.mp hqs
    have hlt := lt_size_of_vertex hvertex
    rw [Site.size_addTo] at hlt
    obtain rfl : v = g.size := by omega
    rw [vertex?, Site.node_addTo] at hvertex
    obtain rfl := Option.some.inj hvertex
    obtain rfl := Option.some.inj (ho.symm.trans ho')
    rw [hself, hqubits]
  · by_cases hv' : v = g.size
    · rw [hv', hself]
      exact Site.nodup_or_loop hknown
    · exact Or.inl (by simp [hnone v hv hv'])

lemma Fed.annotates {g g' : Graph} (hg : Fed g) (h : Annotates g g') : Fed g' := by
  obtain ⟨es, hes, hnew⟩ := h.edges
  have hbits : ∀ v, g'.bitsInto v .qubit = g.bitsInto v .qubit := by
    intro v
    have hnone : (es.filter (·.target = v)).filterMap (Edge.on .qubit) = [] :=
      List.filterMap_eq_nil_iff.mpr fun e he => (hnew e (List.mem_of_mem_filter he)).2
    rw [bitsInto_eq, bitsInto_eq, edgesInto, edgesInto, hes, List.filter_append,
      List.filterMap_append, hnone, List.append_nil]
  have hmem : ∀ e, e ∈ g'.edges ↔ e ∈ g.edges ∨ e ∈ es := fun e => by
    rw [← Array.mem_toList_iff, hes, List.mem_append, Array.mem_toList_iff]
  refine ⟨fun e he => ?_, fun v qs hqs => ?_, fun v => ?_⟩
  · rw [h.size]
    rcases (hmem e).mp he with he | he
    · exact hg.target e he
    · exact (hnew e he).1
  · rw [hbits]
    exact hg.bits v qs (h.operands v ▸ hqs)
  · rw [hbits]
    have hkept : ∀ e ∈ g.edges, e ∈ g'.edges := fun e he => (hmem e).mpr (Or.inl he)
    exact (hg.nodup v).imp_right (Exists.imp fun e => And.imp_left (hkept e))

lemma Fed.perform {g : Graph} (hg : Fed g) (c : Call) : Fed (g.perform c).1 := by
  rcases perform_cases g c with
    ⟨r, h⟩ | ⟨d, h⟩ | ⟨id, clbits, relation, constant, h⟩ | h | ⟨x, o, ho, hqubits, hknown, h⟩
  · exact h ▸ hg.register r
  · exact h ▸ hg.head d
  · exact h ▸ hg.annotates (addCondition_annotates g id clbits relation constant)
  · exact h.symm ▸ hg
  · exact h ▸ hg.site ho hqubits hknown

lemma Fed.run {g : Graph} (hg : Fed g) (cs : List Call) : Fed (g.run cs) := by
  induction cs generalizing g with
  | nil => exact hg
  | cons c cs ih => exact ih (hg.perform c)

/-! ### Graphs that have an order -/

/-- A loop leaves a graph without an order. -/
lemma Fed.loopless {g : Graph} (hg : Fed g) {order : List Nat}
    (h : g.topologicalOrder = .ok order) : g.Loopless :=
  fun e he => topologicalOrder_source_ne h he (hg.target e he)

lemma Fed.supplied {g : Graph} (hg : Fed g) (hloop : g.Loopless) : g.Supplied := by
  have hbits : ∀ {v vertex o}, g.vertex? v = some vertex → vertex.operation? = some o →
      g.bitsInto v .qubit = o.qubits :=
    fun {v vertex o} hv ho => hg.bits v _ (operands?_eq_some.mpr ⟨vertex, o, hv, ho, rfl⟩)
  refine ⟨hbits, fun {v vertex o} hv ho => ?_⟩
  rw [← hbits hv ho]
  rcases hg.nodup v with hnd | ⟨e, he, hs, ht⟩
  · exact hnd
  · exact absurd (hs.trans ht.symm) (hloop e he)

/-- **The qubits of a gate or call are those that edges bring in**, none of them twice, in every graph
that builder calls have made and that has an order. -/
theorem run_supplied {cs : List Call} {order : List Nat}
    (h : (empty.run cs).topologicalOrder = .ok order) : (empty.run cs).Supplied :=
  have hfed := fed_empty.run cs
  hfed.supplied (hfed.loopless h)

end Graph
end QCircuit
