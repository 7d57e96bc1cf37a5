import Mathlib.Data.List.Pairwise
import QCircuit.Proofs.Graph.Statements

/-!
Where the qubits of a gate come from.

Following the edges of a qubit backwards from a gate, one passes the gates that used it before, the
last one first, and ends at the initial vertex that a register made for it. There is one way back
only. A register that declares a bit again starts a new line; the gates of the old line do not move.
-/

namespace QCircuit

namespace Graph

/-- The position is the initial vertex that a register made for a bit. -/
def IsInitOf (g : Graph) (kind : BitKind) (v b : Nat) : Prop :=
  ∃ reg r, g.vertex? reg = some (.register r) ∧ r.kind = kind ∧
    ∃ i < r.count, v = reg + 1 + i ∧ b = r.bit i

/-- The qubit `b` is brought to `v` from `u`. -/
def Behind (g : Graph) (b v u : Nat) : Prop := (⟨u, v, some (.qubit, b)⟩ : Edge) ∈ g.edges

/-- Following the edges of the qubit `b` backwards from `v` ends at `u`. -/
def EndsAt (g : Graph) (b v u : Nat) : Prop :=
  Relation.ReflTransGen (g.Behind b) v u ∧ ∀ w, ¬ g.Behind b u w

/-- A single way back has a single end. -/
lemma EndsAt.unique {g : Graph} {b v u w : Nat} (hone : Relator.RightUnique (g.Behind b))
    (hu : g.EndsAt b v u) (hw : g.EndsAt b v w) : w = u := by
  have hstuck : ∀ {x y}, (∀ z, ¬ g.Behind b x z) → Relation.ReflTransGen (g.Behind b) x y →
      y = x := by
    intro x y hend hpath
    rcases hpath.cases_head with rfl | ⟨z, hz, -⟩
    · rfl
    · exact absurd hz (hend z)
  rcases Relation.ReflTransGen.total_of_right_unique hone hu.1 hw.1 with h | h
  · exact hstuck hu.2 h
  · exact (hstuck hw.2 h).symm

/-- What is behind a position is joined to it by edges. -/
lemma touches_of_behind {g : Graph} {b v u : Nat} (h : Relation.ReflTransGen (g.Behind b) v u) :
    Relation.ReflTransGen g.Touches v u :=
  Relation.ReflTransGen.mono (fun _ _ he => ⟨_, he, Or.inr ⟨rfl, rfl⟩⟩) _ _ h

section Grow

variable {g g' : Graph} (h : Extends g g')
include h

lemma Extends.isInitOf {kind : BitKind} {v b : Nat} (hv : g.IsInitOf kind v b) :
    g'.IsInitOf kind v b := by
  obtain ⟨reg, r, hreg, hr⟩ := hv
  exact ⟨reg, r, by rw [h.vertex?_eq (lt_size_of_vertex hreg), hreg], hr⟩

lemma Extends.behind {b v u : Nat} (hpath : Relation.ReflTransGen (g.Behind b) v u) :
    Relation.ReflTransGen (g'.Behind b) v u :=
  Relation.ReflTransGen.mono (fun _ _ he => h.mem_edges he) _ _ hpath

end Grow

/-- The qubit comes to the position from an initial vertex. -/
def Descends (g : Graph) (v b : Nat) : Prop :=
  ∃ u, g.IsInitOf .qubit u b ∧ Relation.ReflTransGen (g.Behind b) v u

lemma Descends.extends {g g' : Graph} {v b : Nat} (hv : g.Descends v b) (h : Extends g g') :
    g'.Descends v b := by
  obtain ⟨u, hu, hpath⟩ := hv
  exact ⟨u, h.isInitOf hu, h.behind hpath⟩

/-- How initial vertices and the lines that start at them lie. -/
structure Traced (g : Graph) : Prop where
  inits : ∀ reg r, g.vertex? reg = some (.register r) →
    ∀ i < r.count, g.vertex? (reg + 1 + i) = some (.init r.kind)
  user : ∀ p ∈ g.frontier, p.1.scope = .global → p.1.kind = .qubit → g.Descends p.2 p.1.id
  gate : ∀ v o, g.vertex? v = some (.op o) → ∀ b ∈ o.qubits, g.Descends v b
  /-- Bits are brought to gates and calls only. -/
  bit : ∀ e ∈ g.edges, e.bit ≠ none →
    ∃ vertex o, g.vertex? e.target = some vertex ∧ vertex.operation? = some o

lemma traced_empty : Traced empty := by
  refine ⟨?_, ?_, ?_, ?_⟩ <;> simp [empty, vertex?]

section Traced

variable {g : Graph} (hg : Traced g)
include hg

/-- An old vertex, gate or edge is traced as before. -/
lemma Traced.extends {g' : Graph} (h : Extends g g')
    (hinits : ∀ reg r, g.size ≤ reg → g'.vertex? reg = some (.register r) →
      ∀ i < r.count, g'.vertex? (reg + 1 + i) = some (.init r.kind))
    (huser : ∀ p ∈ g'.frontier, p.1.scope = .global → p.1.kind = .qubit → p ∈ g.frontier ∨
      g'.Descends p.2 p.1.id)
    (hgate : ∀ v o, g.size ≤ v → g'.vertex? v = some (.op o) → ∀ b ∈ o.qubits, g'.Descends v b)
    (hbit : ∀ e ∈ g'.edges, e.bit ≠ none → e ∈ g.edges ∨
      ∃ vertex o, g'.vertex? e.target = some vertex ∧ vertex.operation? = some o) :
    Traced g' := by
  refine ⟨fun reg r hreg i hi => ?_, fun p hp hscope hkind => ?_, fun v o hv b hb => ?_,
    fun e he hne => ?_⟩
  · rcases Nat.lt_or_ge reg g.size with hlt | hge
    · rw [h.vertex?_eq hlt] at hreg
      have hold := hg.inits reg r hreg i hi
      rw [h.vertex?_eq (lt_size_of_vertex hold), hold]
    · exact hinits reg r hge hreg i hi
  · rcases huser p hp hscope hkind with hold | hnew
    · exact (hg.user p hold hscope hkind).extends h
    · exact hnew
  · rcases Nat.lt_or_ge v g.size with hlt | hge
    · rw [h.vertex?_eq hlt] at hv
      exact (hg.gate v o hv b hb).extends h
    · exact hgate v o hge hv b hb
  · rcases hbit e he hne with hold | hnew
    · obtain ⟨vertex, o, hv, ho⟩ := hg.bit e hold hne
      exact ⟨vertex, o, by rw [h.vertex?_eq (lt_size_of_vertex hv), hv], ho⟩
    · exact hnew

lemma Traced.register (r : Register) : Traced (r.addTo g) := by
  refine hg.extends (r.extends_addTo g) (fun reg r' hge hreg' i hi => ?_)
    (fun p hp hscope hkind => ?_) (fun v o hge hv => ?_) fun e he hne => ?_
  · obtain ⟨node, hnode, hvertex⟩ := Option.map_eq_some_iff.mp hreg'
    rcases r.node_addTo g hge hnode with ⟨rfl, rfl⟩ | ⟨j, -, -, rfl⟩
    · obtain rfl := Vertex.register.inj hvertex
      exact r.vertex_init g hi
    · exact absurd hvertex (Vertex.init_ne_register _ _)
  · rcases Register.mem_frontier hp with hold | ⟨i, hi, rfl⟩
    · exact Or.inl hold
    · exact Or.inr ⟨_, ⟨g.size, r, r.vertex_register g, hkind, i, hi, rfl, rfl⟩, .refl⟩
  · obtain ⟨node, hnode, hvertex⟩ := Option.map_eq_some_iff.mp hv
    rcases r.node_addTo g hge hnode with ⟨rfl, rfl⟩ | ⟨j, -, -, rfl⟩
    · simp at hvertex
    · cases hk : r.kind <;> simp [hk, Vertex.init] at hvertex
  · rcases Register.mem_edges he with hold | ⟨i, -, rfl⟩
    · exact Or.inl hold
    · exact absurd rfl hne

lemma Traced.head (d : Document.Head) : Traced (d.addTo g) := by
  -- the only new vertex is the root of the body
  have hroot : ∀ v vertex, g.size ≤ v → (d.addTo g).vertex? v = some vertex →
      vertex = .define d.name d.params d.qubits d.clbits := by
    intro v vertex hge hv
    have hlt := lt_size_of_vertex hv
    rw [Document.Head.size_addTo] at hlt
    obtain rfl : v = g.size := by omega
    rw [vertex?, Document.Head.node_root] at hv
    exact (Option.some.inj hv).symm
  refine hg.extends (d.extends_addTo g) (fun reg r hge hreg => ?_) (fun p hp hscope hkind => ?_)
    (fun v o hge hv => ?_) fun e he hne => Or.inl he
  · exact absurd (hroot reg _ hge hreg) (by simp)
  · rcases Document.Head.mem_frontier hp with hold | ⟨hslot, -⟩
    · exact Or.inl hold
    · simp [Document.Head.scope_slots hslot] at hscope
  · exact absurd (hroot v _ hge hv) (by simp)

end Traced

end Graph

open QCircuit.Graph

/-- A qubit always comes on the wire for qubits. -/
lemma Site.wire_of_qubit {x : Site} {root : Option Nat} {b : Leaf × Wire} (hb : b ∈ x.links root)
    (hkind : b.1.kind = .qubit) : b.2 = .qubit := by
  rcases List.mem_append.mp hb with hb | hb
  · simp only [Site.operands, List.mem_append, List.mem_map] at hb
    rcases hb with ⟨q, -, rfl⟩ | ⟨c, -, rfl⟩
    · rfl
    · simp at hkind
  · split at hb
    · obtain ⟨c, -, rfl⟩ := List.mem_map.mp hb
      simp at hkind
    · simp at hb

lemma Graph.Traced.site {g : Graph} (hg : Traced g) {x : Site}
    (hknown : ∀ b ∈ x.links (x.root g), g.knows b.1) {o : Operation}
    (ho : x.vertex.operation? = some o) (hqubits : o.qubits = x.qubits)
    (hscope : ∀ o, x.vertex = .op o → x.scope = .global) : Traced (x.addTo g) := by
  have hext := x.extends_addTo g
  have hself : ∀ v vertex, g.size ≤ v → (x.addTo g).vertex? v = some vertex →
      v = g.size ∧ vertex = x.vertex := by
    intro v vertex hge hv
    obtain ⟨node, hnode, rfl⟩ := Option.map_eq_some_iff.mp hv
    obtain rfl := Site.eq_size_of_le hge hnode
    rw [Site.node_addTo] at hnode
    exact ⟨rfl, by rw [← Option.some.inj hnode]⟩
  -- a qubit that the site uses comes from its last user
  have huse : ∀ b ∈ x.links (x.root g), b.1.scope = .global → b.1.kind = .qubit →
      (x.addTo g).Descends g.size b.1.id := by
    intro b hb hglobal hkind
    obtain ⟨u, hu, hmem⟩ := exists_user (hknown b hb)
    obtain ⟨w, hw, hpath⟩ := (hg.user _ hmem hglobal hkind).extends hext
    obtain ⟨b', hb', hleaf, he⟩ := mem_wires_of_mem (v := g.size) hb hu
    rw [Site.wire_of_qubit hb' (hleaf ▸ hkind)] at he
    have hbehind : (x.addTo g).Behind b.1.id g.size u :=
      Site.mem_edges.mpr (Or.inr (List.mem_append_left _ he))
    exact ⟨w, hw, .head hbehind hpath⟩
  refine hg.extends hext (fun reg r hge hreg => ?_) (fun p hp hglobal hkind => ?_)
    (fun v o' hge hv b hb => ?_) fun e he hne => ?_
  · obtain ⟨-, hvertex⟩ := hself reg _ hge hreg
    simp [← hvertex, Vertex.operation?] at ho
  · rcases Site.mem_frontier hp with hold | ⟨⟨b, hb, hbp⟩, hv⟩
    · exact Or.inl hold
    · rw [hv, ← hbp]
      exact Or.inr (huse b hb (hbp ▸ hglobal) (hbp ▸ hkind))
  · obtain ⟨rfl, hvertex⟩ := hself v _ hge hv
    have hglobal := hscope o' hvertex.symm
    have hq : b ∈ x.qubits := by
      rw [← hvertex] at ho
      rwa [← hqubits, ← Option.some.inj ho]
    exact huse _ (Site.operands_subset_links (Site.mem_operands_qubit hq)) hglobal rfl
  · rcases Site.mem_edges.mp he with hold | hnew
    · exact Or.inl hold
    · refine Or.inr ⟨x.vertex, o, ?_, ho⟩
      rw [Site.target_edges hnew, vertex?, Site.node_addTo]
      rfl

namespace Document

lemma site?_op {st : Statement} {x : Site} (hx : st.site? = some x) {o : Operation}
    (ho : x.vertex = .op o) : x.scope = .global := by
  cases st <;> simp only [Statement.site?, Option.map_eq_some_iff, reduceCtorEq] at hx
  all_goals obtain ⟨o', -, rfl⟩ := hx
  · rfl
  · rfl
  · next p => cases hc : p.caller <;> simp [hc] at ho

theorem build_traced {sts : List Statement} {g : Graph}
    (h : sts.foldlM Statement.apply .empty = .ok g) (hsize : g.size ≤ 4294967296) : Traced g := by
  refine build_induct (P := fun _ g => Traced g) traced_empty ?_ h hsize
  intro sts st g g' _ hsize hst hg
  rcases apply_cases hsize hst with ⟨r, -, rfl⟩ | ⟨d, -, rfl⟩ | ⟨x, hx, hknown, rfl⟩
  · exact hg.register r
  · exact hg.head d
  · obtain ⟨o, ho, hqubits⟩ := site?_operation hx
    exact hg.site hknown ho hqubits fun _ => site?_op hx

/-- Without a loop there is one way back. -/
lemma build_rightUnique {sts : List Statement} {g : Graph}
    (h : sts.foldlM Statement.apply .empty = .ok g) (hsize : g.size ≤ 4294967296)
    (hloop : g.Loopless) (b : Nat) : Relator.RightUnique (g.Behind b) := by
  intro v u w hu hw
  have hnd := build_qubits_nodup h hsize hloop v
  rw [bitsInto_eq, List.Nodup, List.pairwise_filterMap] at hnd
  have hinto : ∀ {u}, g.Behind b v u → (⟨u, v, some (.qubit, b)⟩ : Edge) ∈ g.edgesInto v :=
    fun hu => List.mem_filter.mpr ⟨Array.mem_toList_iff.mpr hu, by simp⟩
  have : Std.Symm fun e e' : Edge => ∀ a, Edge.on .qubit e = some a →
      ∀ a', Edge.on .qubit e' = some a' → a ≠ a' :=
    ⟨fun e e' hapart a' ha' a ha heq => hapart a ha a' ha' heq.symm⟩
  by_contra hne
  have hapart := hnd.forall (hinto hu) (hinto hw) fun he => hne (congrArg Edge.source he)
  exact hapart b (by simp [Edge.on]) b (by simp [Edge.on]) rfl

end Document

/-! ### Initial vertices -/

section Inits

variable {g : Graph} (hg : Traced g) {kind : BitKind} {v b : Nat}
include hg

lemma Graph.IsInitOf.vertex (h : g.IsInitOf kind v b) : g.vertex? v = some (.init kind) := by
  obtain ⟨reg, r, hreg, rfl, i, hi, rfl, -⟩ := h
  exact hg.inits reg r hreg i hi

/-- An initial vertex is that of one bit. -/
lemma Graph.IsInitOf.bit_unique {b' : Nat} (h : g.IsInitOf kind v b) (h' : g.IsInitOf kind v b') :
    b = b' := by
  -- no register stands among the initial vertices of another one
  have hapart : ∀ {reg reg' r r' i i'}, g.vertex? reg = some (.register r) →
      g.vertex? reg' = some (.register r') → i < r.count → reg + 1 + i = reg' + 1 + i' →
      ¬ reg < reg' := by
    intro reg reg' r r' i i' hreg hreg' hi heq hlt
    have hinit := hg.inits reg r hreg (reg' - reg - 1) (by omega)
    rw [show reg + 1 + (reg' - reg - 1) = reg' by omega, hreg'] at hinit
    exact Vertex.init_ne_register _ _ (Option.some.inj hinit).symm
  obtain ⟨reg, r, hreg, -, i, hi, hv, rfl⟩ := h
  obtain ⟨reg', r', hreg', -, i', hi', hv', rfl⟩ := h'
  have heq : reg + 1 + i = reg' + 1 + i' := hv.symm.trans hv'
  obtain rfl : reg = reg' := by
    have h₁ := hapart hreg hreg' hi heq
    have h₂ := hapart hreg' hreg hi' heq.symm
    omega
  obtain rfl : r = r' := Vertex.register.inj (Option.some.inj (hreg.symm.trans hreg'))
  rw [Nat.add_left_cancel heq]

end Inits

/-- **The way back from a gate ends at one initial vertex**, that of the qubit. -/
theorem Document.build_endsAt {sts : List Statement} {g : Graph}
    (h : sts.foldlM Statement.apply .empty = .ok g) (hsize : g.size ≤ 4294967296)
    (hloop : g.Loopless) {v : Nat} {o : Operation} (hv : g.vertex? v = some (.op o)) {b : Nat}
    (hb : b ∈ o.qubits) :
    ∃ u, g.IsInitOf .qubit u b ∧ Relation.ReflTransGen g.Touches v u ∧
      ∀ w, g.EndsAt b v w ↔ w = u := by
  have hg := build_traced h hsize
  obtain ⟨u, hu, hpath⟩ := hg.gate v o hv b hb
  have hends : g.EndsAt b v u := by
    refine ⟨hpath, fun w hw => ?_⟩
    obtain ⟨vertex, o', hvertex, ho'⟩ := hg.bit _ hw (by simp)
    obtain rfl := Option.some.inj (hvertex.symm.trans (hu.vertex hg))
    simp [Vertex.init, Vertex.operation?] at ho'
  refine ⟨u, hu, touches_of_behind hpath, fun w => ⟨fun hw => ?_, ?_⟩⟩
  · exact hends.unique (build_rightUnique h hsize hloop b) hw
  · rintro rfl
    exact hends

end QCircuit
