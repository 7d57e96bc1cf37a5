import Mathlib.Data.List.Nodup
import Mathlib.Logic.Relation
import QCircuit.Proofs.Graph.Building

/-!
How the vertices of a graph are wired.

Edges never lead backwards. Global bits come from registers and stay outside of bodies; what a
vertex inside a body uses comes from the root of this body or from another vertex of it.
-/

namespace QCircuit

/-- The kind of the bits on a wire. -/
def Wire.kind : Wire → BitKind
  | .qubit => .qubit
  | .clbit | .conbit => .clbit

namespace Graph

/-! ### Wires -/

section Wires

variable {v : Nat} {frontier : List (Leaf × Nat)} {bits : List (Leaf × Wire)}

lemma mem_of_lookup {leaf : Leaf} {u : Nat} (h : frontier.lookup leaf = some u) :
    (leaf, u) ∈ frontier := by
  obtain ⟨xs, ys, rfl, -⟩ := List.lookup_eq_some_iff.mp h
  simp

/-- A wire brings one of the bits, from its last user or from the vertex itself. -/
lemma exists_bit_of_mem_wires {e : Edge} (he : e ∈ wires v frontier bits) :
    ∃ b ∈ bits, e.bit = some (b.2, b.1.id) ∧
      (e.source = v ∨ frontier.lookup b.1 = some e.source) := by
  induction bits generalizing frontier with
  | nil => simp [wires] at he
  | cons b bits ih =>
    obtain ⟨leaf, wire⟩ := b
    rw [wires] at he
    split at he
    · obtain ⟨b, hb, h⟩ := ih he
      exact ⟨b, List.mem_cons_of_mem _ hb, h⟩
    · next u hu =>
      rcases List.mem_cons.mp he with rfl | he
      · exact ⟨_, List.mem_cons_self, rfl, Or.inr hu⟩
      · obtain ⟨b, hb, hbit, hsource⟩ := ih he
        refine ⟨b, List.mem_cons_of_mem _ hb, hbit, ?_⟩
        rcases hsource with h | h
        · exact Or.inl h
        · rw [List.lookup_cons] at h
          split at h
          · exact Or.inl (Option.some.inj h).symm
          · exact Or.inr h

/-- Every bit is brought from its last user, the first time that it is used. -/
lemma mem_wires_of_mem {b : Leaf × Wire} (hb : b ∈ bits) {u : Nat}
    (hu : frontier.lookup b.1 = some u) :
    ∃ b' ∈ bits, b'.1 = b.1 ∧ (⟨u, v, some (b'.2, b.1.id)⟩ : Edge) ∈ wires v frontier bits := by
  induction bits generalizing frontier with
  | nil => simp at hb
  | cons first bits ih =>
    obtain ⟨leaf, wire⟩ := first
    rw [wires]
    by_cases hleaf : b.1 = leaf
    · rw [← hleaf, hu]
      exact ⟨_, List.mem_cons_self, rfl, List.mem_cons_self⟩
    · have hb' : b ∈ bits := by
        rcases List.mem_cons.mp hb with h | h
        · exact absurd (congrArg Prod.fst h) hleaf
        · exact h
      split
      · obtain ⟨b', hmem, h⟩ := ih hb' hu
        exact ⟨b', List.mem_cons_of_mem _ hmem, h⟩
      · have hu' : ((leaf, v) :: frontier).lookup b.1 = some u := by
          rw [List.lookup_cons, beq_eq_false_iff_ne.mpr hleaf]
          exact hu
        obtain ⟨b', hmem, hleaf', he⟩ := ih hb' hu'
        exact ⟨b', List.mem_cons_of_mem _ hmem, hleaf', List.mem_cons_of_mem _ he⟩

lemma exists_wire_of_mem {b : Leaf × Wire} (hb : b ∈ bits) {u : Nat}
    (hu : frontier.lookup b.1 = some u) :
    ∃ e ∈ wires v frontier bits, e.source = u ∧ e.target = v := by
  obtain ⟨b', -, -, he⟩ := mem_wires_of_mem (v := v) hb hu
  exact ⟨_, he, rfl, rfl⟩

/-- The wires of known bits bring all of them, in order. -/
lemma filterMap_wires (hknown : ∀ b ∈ bits, (frontier.lookup b.1).isSome) (wire : Wire) :
    (wires v frontier bits).filterMap (Edge.on wire) =
      bits.filterMap fun b => if b.2 = wire then some b.1.id else none := by
  induction bits generalizing frontier with
  | nil => rfl
  | cons b bits ih =>
    obtain ⟨leaf, w⟩ := b
    obtain ⟨u, hu⟩ := Option.isSome_iff_exists.mp (hknown _ List.mem_cons_self)
    have hknown' : ∀ b ∈ bits, (((leaf, v) :: frontier).lookup b.1).isSome := by
      intro b hb
      have := hknown b (List.mem_cons_of_mem _ hb)
      rw [List.lookup_cons]
      split
      · rfl
      · exact this
    rw [wires, hu]
    simp only [List.filterMap_cons, ih hknown', Edge.on]

/-- Where no wire comes from the vertex itself, no bit is used twice. -/
lemma nodup_of_wires (hknown : ∀ b ∈ bits, (frontier.lookup b.1).isSome)
    (hself : ∀ e ∈ wires v frontier bits, e.source ≠ v) : (bits.map (·.1)).Nodup := by
  induction bits generalizing frontier with
  | nil => simp
  | cons b bits ih =>
    obtain ⟨leaf, wire⟩ := b
    obtain ⟨u, hu⟩ := Option.isSome_iff_exists.mp (hknown _ List.mem_cons_self)
    rw [wires, hu] at hself
    rw [List.map_cons, List.nodup_cons]
    constructor
    · intro hmem
      obtain ⟨b, hb, hleaf⟩ := List.mem_map.mp hmem
      have hlookup : ((leaf, v) :: frontier).lookup b.1 = some v := by simp [hleaf]
      obtain ⟨e, he, hs, -⟩ := exists_wire_of_mem (v := v) hb hlookup
      exact hself e (List.mem_cons_of_mem _ he) hs
    · refine ih (fun b hb => ?_) fun e he => hself e (List.mem_cons_of_mem _ he)
      have := hknown b (List.mem_cons_of_mem _ hb)
      rw [List.lookup_cons]
      split
      · rfl
      · exact this

/-- Looking up among uses by one vertex. -/
lemma lookup_of_forall_eq {ps : List (Leaf × Nat)} (hps : ∀ p ∈ ps, p.2 = v) (leaf : Leaf) :
    ps.lookup leaf = if leaf ∈ ps.map (·.1) then some v else none := by
  induction ps with
  | nil => rfl
  | cons p ps ih =>
    rw [List.lookup_cons, ih fun q hq => hps q (List.mem_cons_of_mem _ hq)]
    by_cases hleaf : leaf = p.1
    · simp [hleaf, hps p List.mem_cons_self]
    · simp only [beq_eq_false_iff_ne.mpr hleaf, List.map_cons, List.mem_cons, hleaf, false_or]

lemma lookup_uses (leaf : Leaf) :
    (uses v bits ++ frontier).lookup leaf =
      if leaf ∈ bits.map (·.1) then some v else frontier.lookup leaf := by
  have hall : ∀ p ∈ uses v bits, p.2 = v := by
    intro p hp
    obtain ⟨b, -, rfl⟩ := List.mem_map.mp (List.mem_reverse.mp hp)
    rfl
  rw [List.lookup_append, lookup_of_forall_eq hall]
  simp only [uses, List.map_reverse, List.map_map, List.mem_reverse, Function.comp_def]
  split <;> simp

end Wires

/-! ### What holds of every graph that is built -/

/-- The body that a position stands in. -/
def rootOf (g : Graph) (v : Nat) : Option Nat := g.nodes[v]?.bind (·.root)

/-- The root of a body. -/
def IsRoot (g : Graph) (r : Nat) : Prop :=
  ∃ name params qubits clbits, g.nodes[r]? = some ⟨.define name params qubits clbits, none⟩

/-- A vertex that is neither in a body nor the root of one. -/
def IsOuter (g : Graph) (v : Nat) : Prop :=
  ∃ node, g.nodes[v]? = some node ∧ node.root = none ∧
    ∀ name params qubits clbits, node.vertex ≠ .define name params qubits clbits

/-- Whether an edge joins two positions. -/
def Touches (g : Graph) (a b : Nat) : Prop :=
  ∃ e ∈ g.edges, (e.source = a ∧ e.target = b) ∨ (e.source = b ∧ e.target = a)

/-- Edges join the position to a register of the bit. -/
def Owned (g : Graph) (leaf : Leaf) (v : Nat) : Prop :=
  ∃ reg r, g.vertex? reg = some (.register r) ∧ r.kind = leaf.kind ∧
    (∃ i < r.count, leaf.id = r.bit i) ∧ Relation.ReflTransGen g.Touches reg v

/-- How the edges and the last users of a graph lie. -/
structure Wired (g : Graph) : Prop where
  target : ∀ e ∈ g.edges, e.target < g.size
  source : ∀ e ∈ g.edges, e.source ≤ e.target
  user : ∀ p ∈ g.frontier, p.2 < g.size
  /-- A definition is open as soon as there are slots. -/
  slot : ∀ p ∈ g.frontier, p.1.scope = .inner → g.current.isSome
  outer : ∀ p ∈ g.frontier, p.1.scope = .global → g.IsOuter p.2 ∧ g.Owned p.1 p.2
  current : ∀ r, g.current = some r → g.IsRoot r
  root : ∀ v r, g.rootOf v = some r → r < v ∧ g.IsRoot r

lemma lt_size_of_node {g : Graph} {v : Nat} {node : Node} (h : g.nodes[v]? = some node) :
    v < g.size := (Array.getElem?_eq_some_iff.mp h).1

lemma lt_size_of_vertex {g : Graph} {v : Nat} {vertex : Vertex} (h : g.vertex? v = some vertex) :
    v < g.size := by
  obtain ⟨node, hnode, -⟩ := Option.map_eq_some_iff.mp h
  exact lt_size_of_node hnode

lemma exists_node {g : Graph} {v : Nat} (h : v < g.size) : ∃ node, g.nodes[v]? = some node :=
  ⟨_, Array.getElem?_eq_getElem h⟩

lemma IsRoot.lt_size {g : Graph} {r : Nat} (h : g.IsRoot r) : r < g.size := by
  obtain ⟨_, _, _, _, hnode⟩ := h
  exact lt_size_of_node hnode

lemma IsOuter.lt_size {g : Graph} {v : Nat} (h : g.IsOuter v) : v < g.size := by
  obtain ⟨_, hnode, -⟩ := h
  exact lt_size_of_node hnode

lemma rootOf_lt_size {g : Graph} {v r : Nat} (h : g.rootOf v = some r) : v < g.size := by
  obtain ⟨node, hnode, -⟩ := Option.bind_eq_some_iff.mp h
  exact lt_size_of_node hnode

namespace Extends

variable {g g' : Graph} (h : Extends g g')
include h

lemma rootOf_eq {v : Nat} (hv : v < g.size) : g'.rootOf v = g.rootOf v := by
  rw [rootOf, rootOf, h.node_eq hv]

lemma isRoot {r : Nat} (hr : g.IsRoot r) : g'.IsRoot r := by
  unfold IsRoot at hr ⊢
  rwa [h.node_eq (IsRoot.lt_size hr)]

lemma isOuter {v : Nat} (hv : g.IsOuter v) : g'.IsOuter v := by
  unfold IsOuter at hv ⊢
  rwa [h.node_eq (IsOuter.lt_size hv)]

lemma touches {a b : Nat} (ht : g.Touches a b) : g'.Touches a b := by
  obtain ⟨e, he, hends⟩ := ht
  exact ⟨e, h.mem_edges he, hends⟩

lemma owned {leaf : Leaf} {v : Nat} (ho : g.Owned leaf v) : g'.Owned leaf v := by
  obtain ⟨reg, r, hreg, hkind, hbit, hpath⟩ := ho
  refine ⟨reg, r, ?_, hkind, hbit, Relation.ReflTransGen.mono (fun _ _ => h.touches) _ _ hpath⟩
  rw [h.vertex?_eq (lt_size_of_vertex hreg)]
  exact hreg

end Extends

/-- One more edge away from a register. -/
lemma Owned.step {g : Graph} {leaf : Leaf} {u v : Nat} (h : g.Owned leaf u) (ht : g.Touches u v) :
    g.Owned leaf v := by
  obtain ⟨reg, r, hreg, hkind, hbit, hpath⟩ := h
  exact ⟨reg, r, hreg, hkind, hbit, hpath.tail ht⟩

lemma wired_empty : Wired empty := by
  refine ⟨?_, ?_, ?_, ?_, ?_, ?_, ?_⟩ <;> simp [empty, rootOf]

end Graph

open QCircuit.Graph

section Register

variable (r : Register) (g : Graph)

@[simp] lemma Register.size_addTo : (r.addTo g).size = g.size + 1 + r.count := by
  simp only [Graph.size, Register.addTo, Array.size_append, List.size_toArray, List.length_cons,
    List.length_replicate]
  omega

lemma Register.node_addTo {v : Nat} (hv : g.size ≤ v) {node : Node}
    (hnode : (r.addTo g).nodes[v]? = some node) :
    (v = g.size ∧ node = ⟨.register r, none⟩) ∨
      ∃ i < r.count, v = g.size + 1 + i ∧ node = ⟨.init r.kind, none⟩ := by
  rw [Register.addTo, Array.getElem?_append_right hv, List.getElem?_toArray] at hnode
  obtain ⟨k, rfl⟩ : ∃ k, v = g.size + k := ⟨v - g.size, by omega⟩
  rw [show g.size + k - g.nodes.size = k from Nat.add_sub_cancel_left ..] at hnode
  cases k with
  | zero => exact Or.inl ⟨rfl, (Option.some.inj hnode).symm⟩
  | succ i =>
    rw [List.getElem?_cons_succ, List.getElem?_replicate] at hnode
    split at hnode
    · next hi => exact Or.inr ⟨i, hi, by omega, (Option.some.inj hnode).symm⟩
    · simp at hnode

lemma Register.node_register : (r.addTo g).nodes[g.size]? = some ⟨.register r, none⟩ := by
  simp [Register.addTo, Graph.size]

lemma Register.node_init {i : Nat} (hi : i < r.count) :
    (r.addTo g).nodes[g.size + 1 + i]? = some ⟨.init r.kind, none⟩ := by
  rw [Register.addTo, Array.getElem?_append_right (by simp only [Graph.size]; omega)]
  rw [show g.size + 1 + i - g.nodes.size = i + 1 by simp only [Graph.size]; omega]
  simp [hi]

lemma Register.vertex_register : (r.addTo g).vertex? g.size = some (.register r) := by
  rw [vertex?, r.node_register g]
  rfl

lemma Register.vertex_init {i : Nat} (hi : i < r.count) :
    (r.addTo g).vertex? (g.size + 1 + i) = some (.init r.kind) := by
  rw [vertex?, r.node_init g hi]
  rfl

lemma Vertex.init_ne_define (kind : BitKind) (name : String) (params qubits clbits : Nat) :
    Vertex.init kind ≠ .define name params qubits clbits := by
  cases kind <;> simp [Vertex.init]

lemma Vertex.init_ne_register (kind : BitKind) (r : Register) : Vertex.init kind ≠ .register r := by
  cases kind <;> simp [Vertex.init]

variable {r g}

lemma Register.mem_edges {e : Edge} (he : e ∈ (r.addTo g).edges) :
    e ∈ g.edges ∨ ∃ i < r.count, e = ⟨g.size, g.size + 1 + i, none⟩ := by
  simp only [Register.addTo, Array.mem_append, List.mem_toArray, List.mem_map, List.mem_range] at he
  rcases he with he | ⟨i, hi, rfl⟩
  · exact Or.inl he
  · exact Or.inr ⟨i, hi, rfl⟩

lemma Register.mem_frontier {p : Leaf × Nat} (hp : p ∈ (r.addTo g).frontier) :
    p ∈ g.frontier ∨
      ∃ i < r.count, p = (r.leaf i, g.size + 1 + i) := by
  simp only [Register.addTo, List.mem_append, List.mem_reverse, List.mem_map, List.mem_range] at hp
  rcases hp with ⟨i, hi, rfl⟩ | hp
  · exact Or.inr ⟨i, hi, rfl⟩
  · exact Or.inl hp

lemma Register.wired (hg : Wired g) : Wired (r.addTo g) := by
  have hext := r.extends_addTo g
  have hsize := hext.size_le
  refine ⟨?_, ?_, ?_, ?_, ?_, ?_, ?_⟩
  · intro e he
    rcases Register.mem_edges he with he | ⟨i, hi, rfl⟩
    · exact Nat.lt_of_lt_of_le (hg.target e he) hsize
    · rw [Register.size_addTo]
      simp only
      omega
  · intro e he
    rcases Register.mem_edges he with he | ⟨i, hi, rfl⟩
    · exact hg.source e he
    · simp only
      omega
  · intro p hp
    rcases Register.mem_frontier hp with hp | ⟨i, hi, rfl⟩
    · exact Nat.lt_of_lt_of_le (hg.user p hp) hsize
    · rw [Register.size_addTo]
      simp only
      omega
  · intro p hp hscope
    rcases Register.mem_frontier hp with hp | ⟨i, hi, rfl⟩
    · exact hg.slot p hp hscope
    · simp at hscope
  · intro p hp hscope
    rcases Register.mem_frontier hp with hp | ⟨i, hi, rfl⟩
    · obtain ⟨ho, how⟩ := hg.outer p hp hscope
      exact ⟨hext.isOuter ho, hext.owned how⟩
    · refine ⟨⟨_, r.node_init g hi, rfl, fun _ _ _ _ => Vertex.init_ne_define _ _ _ _ _⟩, ?_⟩
      refine ⟨g.size, r, r.vertex_register g, rfl, ⟨i, hi, rfl⟩, ?_⟩
      refine .single ⟨⟨g.size, g.size + 1 + i, none⟩, ?_, Or.inl ⟨rfl, rfl⟩⟩
      simp only [Register.addTo, Array.mem_append, List.mem_toArray, List.mem_map, List.mem_range]
      exact Or.inr ⟨i, hi, rfl⟩
  · exact fun root hroot => hext.isRoot (hg.current root hroot)
  · intro v root hroot
    rcases Nat.lt_or_ge v g.size with hv | hv
    · rw [hext.rootOf_eq hv] at hroot
      obtain ⟨hlt, hr⟩ := hg.root v root hroot
      exact ⟨hlt, hext.isRoot hr⟩
    · obtain ⟨node, hnode, hnr⟩ := Option.bind_eq_some_iff.mp hroot
      rcases r.node_addTo g hv hnode with ⟨-, rfl⟩ | ⟨i, -, -, rfl⟩ <;> simp at hnr

end Register

namespace Document

section Head

variable {d : Head} {g : Graph}

@[simp] lemma Head.size_addTo : (d.addTo g).size = g.size + 1 := by
  simp [Graph.size, Head.addTo]

lemma Head.node_root :
    (d.addTo g).nodes[g.size]? = some ⟨.define d.name d.params d.qubits d.clbits, none⟩ := by
  simp [Head.addTo, Graph.size]

lemma Head.mem_frontier {p : Leaf × Nat} (hp : p ∈ (d.addTo g).frontier) :
    p ∈ g.frontier ∨ (p.1 ∈ d.slots ∧ p.2 = g.size) := by
  simp only [Head.addTo, List.mem_append, List.mem_reverse, List.mem_map] at hp
  rcases hp with ⟨l, hl, rfl⟩ | hp
  · exact Or.inr ⟨hl, rfl⟩
  · exact Or.inl hp

lemma Head.scope_slots {l : Leaf} (hl : l ∈ d.slots) : l.scope = .inner := by
  simp only [Head.slots, List.mem_append, List.mem_map] at hl
  rcases hl with ⟨i, -, rfl⟩ | ⟨i, -, rfl⟩ <;> rfl

lemma Head.wired (hg : Wired g) : Wired (d.addTo g) := by
  have hext := d.extends_addTo g
  have hroot : (d.addTo g).IsRoot g.size := ⟨_, _, _, _, Head.node_root⟩
  have hlt : g.size < (d.addTo g).size := by rw [Head.size_addTo]; omega
  refine ⟨?_, hg.source, ?_, ?_, ?_, ?_, ?_⟩
  · exact fun e he => Nat.lt_trans (hg.target e he) hlt
  · intro p hp
    rcases Head.mem_frontier hp with hp | ⟨-, hv⟩
    · exact Nat.lt_trans (hg.user p hp) hlt
    · exact hv ▸ hlt
  · exact fun _ _ _ => rfl
  · intro p hp hscope
    rcases Head.mem_frontier hp with hp | ⟨hl, -⟩
    · obtain ⟨ho, how⟩ := hg.outer p hp hscope
      exact ⟨hext.isOuter ho, hext.owned how⟩
    · simp [Head.scope_slots hl] at hscope
  · intro r hr
    obtain rfl := Option.some.inj hr
    exact hroot
  · intro v r hr
    rcases Nat.lt_or_ge v g.size with hv | hv
    · rw [hext.rootOf_eq hv] at hr
      obtain ⟨hlt, hr⟩ := hg.root v r hr
      exact ⟨hlt, hext.isRoot hr⟩
    · obtain rfl : v = g.size := by
        have := rootOf_lt_size hr
        rw [Head.size_addTo] at this
        omega
      rw [rootOf, Head.node_root] at hr
      simp at hr

end Head

end Document

/-- A position of a graph holds what a site says. -/
structure Renders (g : Graph) (v : Nat) (x : Site) : Prop where
  vertex : g.vertex? v = some x.vertex
  qubits : g.bitsInto v .qubit = x.qubits
  clbits : g.bitsInto v .clbit = x.clbits
  conbits : g.bitsInto v .conbit = x.conbits

lemma Renders.lt_size {g : Graph} {v : Nat} {x : Site} (h : Renders g v x) : v < g.size :=
  lt_size_of_vertex h.vertex

lemma Renders.extends {g g' : Graph} {v : Nat} {x : Site} (h : Renders g v x)
    (hext : Extends g g') : Renders g' v x := by
  have hv := h.lt_size
  exact ⟨by rw [hext.vertex?_eq hv, h.vertex], by rw [hext.bitsInto_eq hv, h.qubits],
    by rw [hext.bitsInto_eq hv, h.clbits], by rw [hext.bitsInto_eq hv, h.conbits]⟩

section Site

variable {x : Site} {g : Graph}

@[simp] lemma Site.size_addTo : (x.addTo g).size = g.size + 1 := by
  simp [Graph.size, Site.addTo]

lemma Site.node_addTo : (x.addTo g).nodes[g.size]? = some ⟨x.vertex, x.root g⟩ := by
  simp [Site.addTo, Graph.size]

lemma Site.rootOf_addTo : (x.addTo g).rootOf g.size = x.root g := by
  rw [rootOf, Site.node_addTo]
  rfl

lemma Site.mem_edges {e : Edge} : e ∈ (x.addTo g).edges ↔ e ∈ g.edges ∨ e ∈ x.edges g := by
  simp [Site.addTo]

/-- Where the edges of a site come from. -/
lemma Site.source_edges {e : Edge} (he : e ∈ x.edges g) :
    e.source = g.size ∨ x.root g = some e.source ∨
      ∃ b ∈ x.links (x.root g), g.frontier.lookup b.1 = some e.source := by
  rcases Site.mem_wires_or_root he with he | ⟨r, c, hr, rfl⟩
  · obtain ⟨b, hb, -, hsource⟩ := exists_bit_of_mem_wires he
    rcases hsource with h | h
    · exact Or.inl h
    · exact Or.inr (Or.inr ⟨b, hb, h⟩)
  · exact Or.inr (Or.inl hr)

lemma Site.mem_frontier {p : Leaf × Nat} (hp : p ∈ (x.addTo g).frontier) :
    p ∈ g.frontier ∨ ((∃ b ∈ x.links (x.root g), b.1 = p.1) ∧ p.2 = g.size) := by
  rcases List.mem_append.mp hp with hp | hp
  · obtain ⟨b, hb, rfl⟩ := List.mem_map.mp (List.mem_reverse.mp hp)
    exact Or.inr ⟨⟨b, hb, rfl⟩, rfl⟩
  · exact Or.inl hp

/-- A site is the last user of the bits that are linked to it. -/
lemma Site.lookup_addTo (b : Leaf) : (x.addTo g).frontier.lookup b =
    if b ∈ (x.links (x.root g)).map (·.1) then some g.size else g.frontier.lookup b :=
  lookup_uses b

/-- The operands of a site are on its side of the definitions. -/
lemma Site.scope_operands {b : Leaf × Wire} (hb : b ∈ x.operands) : b.1.scope = x.scope := by
  simp only [Site.operands, List.mem_append, List.mem_map] at hb
  rcases hb with ⟨q, -, rfl⟩ | ⟨c, -, rfl⟩ <;> rfl

/-- Only what stands in no body uses global bits. -/
lemma Site.root_of_global {b : Leaf × Wire} (hb : b ∈ x.links (x.root g))
    (hscope : b.1.scope = .global) : x.root g = none := by
  rcases List.mem_append.mp hb with hb | hb
  · rw [Site.root, ← Site.scope_operands hb, hscope]
    rfl
  · split at hb
    · next h => simpa using h
    · simp at hb

lemma exists_user {leaf : Leaf} (h : g.knows leaf) :
    ∃ u, g.frontier.lookup leaf = some u ∧ (leaf, u) ∈ g.frontier := by
  obtain ⟨u, hu⟩ := Option.isSome_iff_exists.mp h
  exact ⟨u, hu, mem_of_lookup hu⟩

lemma Site.isOuter (hx : x.vertex.operation?.isSome) (hroot : x.root g = none) :
    (x.addTo g).IsOuter g.size := by
  refine ⟨_, Site.node_addTo, hroot, fun name params qubits clbits hdef => ?_⟩
  simp only at hdef
  simp [hdef, Vertex.operation?] at hx

/-- The edges of a site bring in what it lists on every wire, in order. -/
lemma Site.filterMap_edges (hknown : ∀ b ∈ x.links (x.root g), g.knows b.1) :
    (x.edges g).filterMap (Edge.on .qubit) = x.qubits ∧
      (x.edges g).filterMap (Edge.on .clbit) = x.clbits ∧
      (x.edges g).filterMap (Edge.on .conbit) = x.conbits := by
  simp only [Site.edges, List.filterMap_append, filterMap_wires hknown]
  rcases hr : x.root g with _ | r <;>
    simp [Site.links, Site.operands, Site.rootEdges, List.filterMap_map, Function.comp_def, Edge.on]

/-- A site that names a qubit twice loops. -/
lemma Site.nodup_or_loop (hknown : ∀ b ∈ x.links (x.root g), g.knows b.1) :
    x.qubits.Nodup ∨ ∃ e ∈ (x.addTo g).edges, e.source = g.size ∧ e.target = g.size := by
  by_cases hloop : ∃ e ∈ wires g.size g.frontier (x.links (x.root g)), e.source = g.size
  · obtain ⟨e, he, hsource⟩ := hloop
    exact Or.inr ⟨e, Site.mem_edges.mpr (Or.inr (List.mem_append_left _ he)), hsource,
      target_wires he⟩
  · have hleaves : ((x.links (x.root g)).map (·.1)).Nodup :=
      nodup_of_wires (v := g.size) hknown fun e he hs => hloop ⟨e, he, hs⟩
    have hsub : (x.qubits.map fun q => (⟨x.scope, .qubit, q⟩ : Leaf)).Sublist
        ((x.links (x.root g)).map (·.1)) := by
      simp only [Site.links, Site.operands, List.map_append, List.map_map, List.append_assoc]
      exact List.sublist_append_left _ _
    exact Or.inl ((hleaves.sublist hsub).of_map _)

lemma Site.edgesInto_addTo (hg : Wired g) : (x.addTo g).edgesInto g.size = x.edges g := by
  have hold : g.edges.toList.filter (·.target = g.size) = [] := by
    refine List.filter_eq_nil_iff.mpr fun e he ht => ?_
    have := hg.target e (Array.mem_toList_iff.mp he)
    have : e.target = g.size := by simpa using ht
    omega
  have hnew : (x.edges g).filter (·.target = g.size) = x.edges g :=
    List.filter_eq_self.mpr fun e he => by simpa using Site.target_edges he
  rw [edgesInto, show (x.addTo g).edges.toList = g.edges.toList ++ x.edges g by simp [Site.addTo],
    List.filter_append, hold, hnew, List.nil_append]

section Known

variable (hg : Wired g) (hknown : ∀ b ∈ x.links (x.root g), g.knows b.1)
include hg hknown

/-- A site is joined to the registers of its global bits. -/
lemma Site.owned {b : Leaf × Wire} (hb : b ∈ x.links (x.root g)) (hscope : b.1.scope = .global) :
    (x.addTo g).Owned b.1 g.size := by
  obtain ⟨u, hu, hmem⟩ := exists_user (hknown b hb)
  obtain ⟨e, he, hs, ht⟩ := exists_wire_of_mem (v := g.size) hb hu
  have ho := (x.extends_addTo g).owned (hg.outer _ hmem hscope).2
  exact ho.step ⟨e, Site.mem_edges.mpr (Or.inr (List.mem_append_left _ he)), Or.inl ⟨hs, ht⟩⟩

lemma Site.wired (hx : x.vertex.operation?.isSome) : Wired (x.addTo g) := by
  have hext := x.extends_addTo g
  have hlt : g.size < (x.addTo g).size := by rw [Site.size_addTo]; omega
  have hcurrent : ∀ r, x.root g = some r → g.IsRoot r :=
    fun r hr => hg.current r (Site.root_eq_some_iff.mp hr).2
  refine ⟨?_, ?_, ?_, ?_, ?_, ?_, ?_⟩
  · intro e he
    rcases Site.mem_edges.mp he with he | he
    · exact Nat.lt_trans (hg.target e he) hlt
    · rw [Site.target_edges he]
      exact hlt
  · intro e he
    rcases Site.mem_edges.mp he with he | he
    · exact hg.source e he
    · rw [Site.target_edges he]
      rcases Site.source_edges he with h | h | ⟨b, -, h⟩
      · exact Nat.le_of_eq h
      · exact Nat.le_of_lt (hcurrent _ h).lt_size
      · exact Nat.le_of_lt (hg.user _ (mem_of_lookup h))
  · intro p hp
    rcases Site.mem_frontier hp with hp | ⟨-, hv⟩
    · exact Nat.lt_trans (hg.user p hp) hlt
    · exact hv ▸ hlt
  · intro p hp hscope
    rcases Site.mem_frontier hp with hp | ⟨⟨b, hb, hbp⟩, -⟩
    · exact hg.slot p hp hscope
    · obtain ⟨u, -, hmem⟩ := exists_user (hknown b hb)
      exact hg.slot _ hmem (hbp ▸ hscope)
  · intro p hp hscope
    rcases Site.mem_frontier hp with hp | ⟨⟨b, hb, hbp⟩, hv⟩
    · obtain ⟨ho, how⟩ := hg.outer p hp hscope
      exact ⟨hext.isOuter ho, hext.owned how⟩
    · rw [← hbp] at hscope
      rw [hv, ← hbp]
      exact ⟨Site.isOuter hx (Site.root_of_global hb hscope), Site.owned hg hknown hb hscope⟩
  · exact fun r hr => hext.isRoot (hg.current r hr)
  · intro v r hr
    rcases Nat.lt_or_ge v g.size with hv | hv
    · rw [hext.rootOf_eq hv] at hr
      obtain ⟨hlt, hr⟩ := hg.root v r hr
      exact ⟨hlt, hext.isRoot hr⟩
    · obtain rfl : v = g.size := by
        have := rootOf_lt_size hr
        rw [Site.size_addTo] at this
        omega
      rw [Site.rootOf_addTo] at hr
      have := hcurrent r hr
      exact ⟨this.lt_size, hext.isRoot this⟩

/-- A site that stands in no body has global bits only. -/
lemma Site.leaf_of_root (hroot : x.root g = none) {b : Leaf × Wire}
    (hb : b ∈ x.links (x.root g)) : b.1 = ⟨.global, b.2.kind, b.1.id⟩ := by
  have hscope : b.1.scope = .global := by
    cases hs : b.1.scope with
    | global => rfl
    | inner =>
      -- a slot is known only where a definition is open
      obtain ⟨u, -, hmem⟩ := exists_user (hknown b hb)
      have hcurrent := hg.slot _ hmem hs
      rcases List.mem_append.mp hb with hb | hb
      · rw [Site.root, ← Site.scope_operands hb, hs, if_pos rfl] at hroot
        simp [hroot] at hcurrent
      · split at hb
        · obtain ⟨c, -, rfl⟩ := List.mem_map.mp hb
          simp at hs
        · simp at hb
  have hkind : b.1.kind = b.2.kind := by
    simp only [Site.links, Site.operands, hroot, Option.isNone_none, if_true, List.mem_append,
      List.mem_map] at hb
    rcases hb with (⟨q, -, rfl⟩ | ⟨c, -, rfl⟩) | ⟨c, -, rfl⟩ <;> rfl
  rw [← hscope, ← hkind]

/-- **A site is recorded as it stands**: its vertex, and its bits on every wire, in order. -/
theorem Site.renders : Renders (x.addTo g) g.size x := by
  have hbits : ∀ wire, (x.addTo g).bitsInto g.size wire = (x.edges g).filterMap (Edge.on wire) :=
    fun wire => by rw [bitsInto_eq, Site.edgesInto_addTo hg]
  obtain ⟨hqubits, hclbits, hconbits⟩ := Site.filterMap_edges hknown
  refine ⟨?_, (hbits _).trans hqubits, (hbits _).trans hclbits, (hbits _).trans hconbits⟩
  rw [vertex?, Site.node_addTo]
  rfl

end Known

end Site

namespace Document

lemma site?_operation {st : Statement} {x : Site} (h : st.site? = some x) :
    ∃ o, x.vertex.operation? = some o ∧ o.qubits = x.qubits := by
  cases st with
  | register r => simp [Statement.site?] at h
  | define d => simp [Statement.site?] at h
  | op i =>
    obtain ⟨o, ho, rfl⟩ := Option.map_eq_some_iff.mp h
    obtain ⟨cmp, -, rfl⟩ := Option.map_eq_some_iff.mp ho
    exact ⟨_, rfl, rfl⟩
  | caller i =>
    obtain ⟨o, ho, rfl⟩ := Option.map_eq_some_iff.mp h
    obtain ⟨cmp, -, rfl⟩ := Option.map_eq_some_iff.mp ho
    exact ⟨_, rfl, rfl⟩
  | callee p =>
    obtain ⟨o, ho, rfl⟩ := Option.map_eq_some_iff.mp h
    simp only [Part.operation?, Option.bind_eq_bind, Option.bind_eq_some_iff, Option.pure_def,
      Option.some.injEq] at ho
    obtain ⟨params, -, cmp, -, rfl⟩ := ho
    cases p.caller <;> exact ⟨_, rfl, rfl⟩

lemma apply_wired {g g' : Graph} {st : Statement} (hg : Wired g) (hsize : g'.size ≤ 4294967296)
    (hst : st.apply g = .ok g') : Wired g' := by
  rcases apply_cases hsize hst with ⟨r, -, rfl⟩ | ⟨d, -, rfl⟩ | ⟨x, hx, hknown, rfl⟩
  · exact Register.wired hg
  · exact Head.wired hg
  · obtain ⟨o, ho, -⟩ := site?_operation hx
    exact Site.wired hg hknown (by simp [ho])

/-- **Every graph that is built is wired.** -/
theorem build_wired {sts : List Statement} {g : Graph}
    (h : sts.foldlM Statement.apply .empty = .ok g) (hsize : g.size ≤ 4294967296) : Wired g :=
  build_induct (P := fun _ g => Wired g) wired_empty
    (fun _ _ _ _ _ hsize hst hg => apply_wired hg hsize hst) h hsize

/-- **What stands in no body is entered from outside of bodies only**, and edges join it to the
registers of its bits. -/
theorem build_outside {sts : List Statement} {g : Graph}
    (h : sts.foldlM Statement.apply .empty = .ok g) (hsize : g.size ≤ 4294967296) :
    ∀ e ∈ g.edges, g.rootOf e.target = none → g.IsOuter e.source ∧
      ∀ wire b, e.bit = some (wire, b) → g.Owned ⟨.global, wire.kind, b⟩ e.target := by
  refine build_induct (P := fun _ g => ∀ e ∈ g.edges, g.rootOf e.target = none →
    g.IsOuter e.source ∧ ∀ wire b, e.bit = some (wire, b) →
      g.Owned ⟨.global, wire.kind, b⟩ e.target) (by simp [Graph.empty]) ?_ h hsize
  intro sts st g g' hbuild hsize hst ih e he hroot
  have hext := apply_extends hsize hst
  have hg := build_wired hbuild (Nat.le_trans hext.size_le hsize)
  have hold : e ∈ g.edges → g'.IsOuter e.source ∧ ∀ wire b, e.bit = some (wire, b) →
      g'.Owned ⟨.global, wire.kind, b⟩ e.target := by
    intro hmem
    rw [hext.rootOf_eq (hg.target e hmem)] at hroot
    obtain ⟨houter, howned⟩ := ih e hmem hroot
    exact ⟨hext.isOuter houter, fun wire b hbit => hext.owned (howned wire b hbit)⟩
  rcases apply_cases hsize hst with ⟨r, rfl, rfl⟩ | ⟨d, rfl, rfl⟩ | ⟨x, hx, hknown, rfl⟩
  · rcases Register.mem_edges he with hmem | ⟨i, -, rfl⟩
    · exact hold hmem
    · exact ⟨⟨_, r.node_register g, rfl, by simp⟩, by simp⟩
  · exact hold he
  · rcases Site.mem_edges.mp he with hmem | hnew
    · exact hold hmem
    · obtain ⟨o, ho, -⟩ := site?_operation hx
      rw [Site.target_edges hnew, Site.rootOf_addTo] at hroot
      have hwires : e ∈ Graph.wires g.size g.frontier (x.links (x.root g)) := by
        rwa [Site.edges_of_root hroot] at hnew
      obtain ⟨b, hb, hbit, hsource⟩ := exists_bit_of_mem_wires hwires
      have hleaf := Site.leaf_of_root hg hknown hroot hb
      refine ⟨?_, fun wire c hc => ?_⟩
      · rcases hsource with hself | hu
        · rw [hself]
          exact Site.isOuter (by simp [ho]) hroot
        · exact hext.isOuter (hg.outer _ (mem_of_lookup hu) (by rw [hleaf])).1
      · obtain ⟨rfl, rfl⟩ := Prod.mk.inj (Option.some.inj (hbit.symm.trans hc))
        rw [Site.target_edges hnew, ← hleaf]
        exact Site.owned hg hknown hb (by rw [hleaf])

end Document
end QCircuit
