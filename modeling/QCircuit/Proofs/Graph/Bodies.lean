import QCircuit.Proofs.Graph.LeastFirst
import QCircuit.Proofs.Graph.Traversal
import QCircuit.Proofs.Graph.Wiring

/-!
The bodies of definitions.

When every callee keeps to the slots of its definition, the vertices of a body are those reached
from its root, and the users of a slot form a path in the order of the document. So walking the
body depth first gives every slot the order of the document.
-/

namespace QCircuit

namespace Document

/-- The part keeps to the slots of the definition. -/
def Part.FitsIn (p : Part) (d : Head) : Prop :=
  (∀ q ∈ p.qubits, q < d.qubits) ∧ ∀ c ∈ p.clbits, c < d.clbits

instance (p : Part) (d : Head) : Decidable (p.FitsIn d) := inferInstanceAs (Decidable (_ ∧ _))

/-- The definition that is open after a statement. -/
def Statement.headAfter (head : Option Head) : Statement → Option Head
  | .define d => some d
  | _ => head

/-- Every callee keeps to the slots of the definition it follows. -/
def SlotsDeclared (head : Option Head) : List Statement → Prop
  | [] => True
  | st :: sts =>
    (∀ p, st = .callee p → ∀ d, head = some d → p.FitsIn d) ∧ SlotsDeclared (st.headAfter head) sts

lemma slotsDeclared_snoc {head : Option Head} {sts : List Statement} {st : Statement} :
    SlotsDeclared head (sts ++ [st]) ↔ SlotsDeclared head sts ∧
      ∀ p, st = .callee p → ∀ d, sts.foldl Statement.headAfter head = some d → p.FitsIn d := by
  induction sts generalizing head with
  | nil => simp [SlotsDeclared]
  | cons s sts ih => simp only [List.cons_append, SlotsDeclared, ih, List.foldl_cons, and_assoc]

/-- The qubits of a gate or a call. -/
def Statement.qubits? : Statement → Option (List Nat)
  | .op i | .caller i => some i.qubits
  | .callee p => some p.qubits
  | .register _ | .define _ => none

lemma site?_qubits {st : Statement} {x : Site} (h : st.site? = some x) :
    st.qubits? = some x.qubits := by
  cases st <;> simp only [Statement.site?, Option.map_eq_some_iff, reduceCtorEq] at h
  all_goals
    obtain ⟨o, -, rfl⟩ := h
    rfl

/-- Inside a body there are only parts of definitions. -/
lemma site?_inner {st : Statement} {x : Site} (h : st.site? = some x) (hscope : x.scope = .inner) :
    x.vertex.isCall ∧ ∃ p, st = .callee p ∧ x.qubits = p.qubits ∧ x.clbits = p.clbits := by
  cases st <;> simp only [Statement.site?, Option.map_eq_some_iff, reduceCtorEq] at h
  all_goals obtain ⟨o, -, rfl⟩ := h
  · simp at hscope
  · simp at hscope
  · next p => exact ⟨by cases p.caller <;> rfl, p, rfl, rfl, rfl⟩

lemma Head.mem_slots {d : Head} {l : Leaf} :
    l ∈ d.slots ↔ l.scope = .inner ∧
      l.id < (match l.kind with | .qubit => d.qubits | .clbit => d.clbits) := by
  obtain ⟨scope, kind, id⟩ := l
  cases scope <;> cases kind <;> simp [Head.slots]

end Document

namespace Graph

open Document (Head)

/-- An edge leads from one position to another. -/
def Leads (g : Graph) (a b : Nat) : Prop := ∃ e ∈ g.edges, e.source = a ∧ e.target = b

lemma Extends.leads {g g' : Graph} (h : Extends g g') {a b : Nat} (hl : g.Leads a b) :
    g'.Leads a b := by
  obtain ⟨e, he, hends⟩ := hl
  exact ⟨e, h.mem_edges he, hends⟩

lemma Extends.transGen {g g' : Graph} (h : Extends g g') {a b : Nat}
    (hp : Relation.TransGen g.Leads a b) : Relation.TransGen g'.Leads a b :=
  Relation.TransGen.mono (fun _ _ => h.leads) _ _ hp

lemma Extends.reflTransGen {g g' : Graph} (h : Extends g g') {a b : Nat}
    (hp : Relation.ReflTransGen g.Leads a b) : Relation.ReflTransGen g'.Leads a b :=
  Relation.ReflTransGen.mono (fun _ _ => h.leads) _ _ hp

/-- The position is the root of a body or in it. -/
def Within (g : Graph) (r v : Nat) : Prop := v = r ∨ g.rootOf v = some r

/-- The position uses a slot. -/
def UsesQubit (g : Graph) (v q : Nat) : Prop := q ∈ g.bitsInto v .qubit

/-- What holds of the open definition: the last user of every slot is in its body, and the others
lead to it. -/
def Threaded (g : Graph) (r : Nat) (d : Head) : Prop :=
  ∀ l ∈ d.slots, ∃ u, g.frontier.lookup l = some u ∧ g.Within r u ∧
    ∀ w, g.rootOf w = some r → l.kind = .qubit → g.UsesQubit w l.id →
      Relation.ReflTransGen g.Leads w u

/-- How the bodies of a graph lie. -/
structure Bodied (g : Graph) (head : Option Head) : Prop where
  threaded : ∀ r, g.current = some r → ∃ d, head = some d ∧ g.Threaded r d
  call : ∀ v r, g.rootOf v = some r → (g.vertex? v).any Vertex.isCall
  inside : ∀ e ∈ g.edges, ∀ r, g.rootOf e.target = some r → g.Within r e.source
  outside : ∀ e ∈ g.edges, g.rootOf e.target = none → g.IsOuter e.source
  entered : ∀ v r, g.rootOf v = some r → ∃ u < v, g.Leads u v
  chained : ∀ u w r q, g.rootOf u = some r → g.rootOf w = some r → g.UsesQubit u q →
    g.UsesQubit w q → u < w → Relation.TransGen g.Leads u w

lemma bodied_empty : Bodied empty none := by
  refine ⟨?_, ?_, ?_, ?_, ?_, ?_⟩ <;> simp [empty, rootOf]

namespace Extends

variable {g g' : Graph} (h : Extends g g')
include h

lemma within {r v : Nat} (hw : g.Within r v) : g'.Within r v := by
  rcases hw with rfl | hw
  · exact Or.inl rfl
  · exact Or.inr (by rw [h.rootOf_eq (rootOf_lt_size hw), hw])

lemma usesQubit_iff {v q : Nat} (hv : v < g.size) : g'.UsesQubit v q ↔ g.UsesQubit v q := by
  unfold UsesQubit
  rw [h.bitsInto_eq hv]

lemma edge_cases {e : Edge} (he : e ∈ g'.edges) : e ∈ g.edges ∨ g.size ≤ e.target := by
  obtain ⟨es, hes, hfresh⟩ := h.edges
  rw [← Array.mem_toList_iff, hes, List.mem_append] at he
  exact he.imp Array.mem_toList_iff.mp (hfresh e)

end Extends

/-- What is old stays in place; the rest is to be shown of the new vertices. -/
lemma Bodied.of_extends {g g' : Graph} {head head' : Option Head} (hg : Wired g)
    (hb : Bodied g head) (hext : Extends g g')
    (threaded : ∀ r, g'.current = some r → ∃ d, head' = some d ∧ g'.Threaded r d)
    (call : ∀ v r, g.size ≤ v → g'.rootOf v = some r → (g'.vertex? v).any Vertex.isCall)
    (inside : ∀ e ∈ g'.edges, g.size ≤ e.target → ∀ r, g'.rootOf e.target = some r →
      g'.Within r e.source)
    (outside : ∀ e ∈ g'.edges, g.size ≤ e.target → g'.rootOf e.target = none →
      g'.IsOuter e.source)
    (entered : ∀ v r, g.size ≤ v → g'.rootOf v = some r → ∃ u < v, g'.Leads u v)
    (chained : ∀ u w r q, g.size ≤ w → g'.rootOf u = some r → g'.rootOf w = some r →
      g'.UsesQubit u q → g'.UsesQubit w q → u < w → Relation.TransGen g'.Leads u w) :
    Bodied g' head' := by
  refine ⟨threaded, ?_, ?_, ?_, ?_, ?_⟩
  · intro v r hr
    rcases Nat.lt_or_ge v g.size with hv | hv
    · rw [hext.vertex?_eq hv]
      exact hb.call v r (by rwa [← hext.rootOf_eq hv])
    · exact call v r hv hr
  · intro e he r hr
    rcases hext.edge_cases he with hold | hnew
    · rw [hext.rootOf_eq (hg.target e hold)] at hr
      exact hext.within (hb.inside e hold r hr)
    · exact inside e he hnew r hr
  · intro e he hr
    rcases hext.edge_cases he with hold | hnew
    · rw [hext.rootOf_eq (hg.target e hold)] at hr
      exact hext.isOuter (hb.outside e hold hr)
    · exact outside e he hnew hr
  · intro v r hr
    rcases Nat.lt_or_ge v g.size with hv | hv
    · obtain ⟨u, hu, hl⟩ := hb.entered v r (by rwa [← hext.rootOf_eq hv])
      exact ⟨u, hu, hext.leads hl⟩
    · exact entered v r hv hr
  · intro u w r q hu hw huq hwq huw
    rcases Nat.lt_or_ge w g.size with hws | hws
    · have hus : u < g.size := Nat.lt_trans huw hws
      rw [hext.rootOf_eq hus] at hu
      rw [hext.rootOf_eq hws] at hw
      rw [hext.usesQubit_iff hus] at huq
      rw [hext.usesQubit_iff hws] at hwq
      exact hext.transGen (hb.chained u w r q hu hw huq hwq huw)
    · exact chained u w r q hws hu hw huq hwq huw

/-- The slots of the open definition stay threaded while their last users stay. -/
lemma Threaded.of_extends {g g' : Graph} {r : Nat} {d : Head} (ht : g.Threaded r d)
    (hext : Extends g g') (hlookup : ∀ l ∈ d.slots, g'.frontier.lookup l = g.frontier.lookup l)
    (hroot : ∀ v, g.size ≤ v → g'.rootOf v ≠ some r) : g'.Threaded r d := by
  intro l hl
  obtain ⟨u, hu, hwithin, hpath⟩ := ht l hl
  refine ⟨u, by rw [hlookup l hl, hu], hext.within hwithin, fun w hw hkind huses => ?_⟩
  have hws : w < g.size := by
    by_contra hge
    exact hroot w (Nat.le_of_not_lt hge) hw
  rw [hext.rootOf_eq hws] at hw
  rw [hext.usesQubit_iff hws] at huses
  exact hext.reflTransGen (hpath w hw hkind huses)

end Graph

open QCircuit.Graph

lemma Register.rootOf_new {r : Register} {g : Graph} {v : Nat} (hv : g.size ≤ v) :
    (r.addTo g).rootOf v = none := by
  unfold rootOf
  cases hnode : (r.addTo g).nodes[v]? with
  | none => rfl
  | some node => rcases r.node_addTo g hv hnode with ⟨-, rfl⟩ | ⟨i, -, -, rfl⟩ <;> rfl

/-- A register makes new users of its own bits only. -/
lemma Register.lookup_of_ne {r : Register} {g : Graph} {l : Leaf}
    (hl : ∀ i < r.count, l ≠ r.leaf i) :
    (r.addTo g).frontier.lookup l = g.frontier.lookup l := by
  rw [Register.addTo, List.lookup_append]
  have hnone : (((List.range r.count).map fun i =>
      (r.leaf i, g.size + 1 + i)).reverse).lookup l = none := by
    rw [List.lookup_eq_none_iff]
    intro p hp
    obtain ⟨i, hi, rfl⟩ := List.mem_map.mp (List.mem_reverse.mp hp)
    exact bne_iff_ne.mpr (hl i (List.mem_range.mp hi))
  rw [hnone, Option.none_or]

lemma Register.lookup_inner {r : Register} {g : Graph} {l : Leaf} (hl : l.scope = .inner) :
    (r.addTo g).frontier.lookup l = g.frontier.lookup l := by
  refine Register.lookup_of_ne fun i _ h => ?_
  rw [h] at hl
  simp at hl

lemma Register.bodied {r : Register} {g : Graph} {head : Option Document.Head} (hg : Wired g)
    (hb : Bodied g head) : Bodied (r.addTo g) head := by
  have hext := r.extends_addTo g
  refine hb.of_extends hg hext ?_ ?_ ?_ ?_ ?_ ?_
  · intro root hroot
    obtain ⟨d, hd, ht⟩ := hb.threaded root hroot
    refine ⟨d, hd, ht.of_extends hext (fun l hl => ?_) fun v hv => ?_⟩
    · exact Register.lookup_inner (Document.Head.scope_slots hl)
    · simp [Register.rootOf_new hv]
  · intro v root hv hroot
    simp [Register.rootOf_new hv] at hroot
  · intro e _ hv root hroot
    simp [Register.rootOf_new hv] at hroot
  · intro e he hv _
    rcases Register.mem_edges he with hold | ⟨i, -, rfl⟩
    · have := hg.target e hold
      omega
    · exact ⟨_, r.node_register g, rfl, by simp⟩
  · intro v root hv hroot
    simp [Register.rootOf_new hv] at hroot
  · intro u w root q hw _ hroot
    simp [Register.rootOf_new hw] at hroot

namespace Document

lemma Head.rootOf_new {d : Head} {g : Graph} {v : Nat} (hv : g.size ≤ v) :
    (d.addTo g).rootOf v = none := by
  by_cases hlt : v < (d.addTo g).size
  · obtain rfl : v = g.size := by
      rw [Head.size_addTo] at hlt
      omega
    rw [rootOf, Head.node_root]
    rfl
  · rw [rootOf, Array.getElem?_eq_none (by simpa [Graph.size] using hlt)]
    rfl

lemma Head.lookup_addTo {d : Head} {g : Graph} {l : Leaf} :
    (d.addTo g).frontier.lookup l =
      if l ∈ d.slots then some g.size else g.frontier.lookup l := by
  have hall : ∀ p ∈ (d.slots.map fun l => (l, g.size)).reverse, p.2 = g.size := by
    intro p hp
    obtain ⟨l, -, rfl⟩ := List.mem_map.mp (List.mem_reverse.mp hp)
    rfl
  rw [Head.addTo, List.lookup_append, lookup_of_forall_eq hall]
  simp only [List.map_reverse, List.map_map, List.mem_reverse, Function.comp_def, List.map_id']
  split <;> simp

lemma Head.bodied {d : Head} {g : Graph} {head : Option Head} (hg : Wired g)
    (hb : Bodied g head) : Bodied (d.addTo g) (some d) := by
  have hext := d.extends_addTo g
  refine hb.of_extends hg hext ?_ ?_ ?_ ?_ ?_ ?_
  · intro r hr
    obtain rfl : g.size = r := Option.some.inj hr
    refine ⟨d, rfl, fun l hl => ⟨g.size, ?_, Or.inl rfl, fun w hw => ?_⟩⟩
    · rw [Head.lookup_addTo, if_pos hl]
    · -- no vertex stands in the new body yet
      have hws := rootOf_lt_size hw
      rcases Nat.lt_or_ge w g.size with hlt | hge
      · rw [hext.rootOf_eq hlt] at hw
        have := (hg.root w _ hw).1
        omega
      · simp [Head.rootOf_new hge] at hw
  · intro v r hv hr
    simp [Head.rootOf_new hv] at hr
  · intro e _ hv r hr
    simp [Head.rootOf_new hv] at hr
  · intro e he hv _
    have := hg.target e he
    omega
  · intro v r hv hr
    simp [Head.rootOf_new hv] at hr
  · intro u w r q hw _ hr
    simp [Head.rootOf_new hw] at hr

end Document

section Site

variable {x : Site} {g : Graph} {head : Option Document.Head}

lemma Site.mem_operands_qubit {q : Nat} (hq : q ∈ x.qubits) :
    (⟨x.scope, .qubit, q⟩, .qubit) ∈ x.operands :=
  List.mem_append_left _ (List.mem_map.mpr ⟨q, hq, rfl⟩)

lemma Site.operands_subset_links {b : Leaf × Wire} {root : Option Nat} (hb : b ∈ x.operands) :
    b ∈ x.links root := List.mem_append_left _ hb

lemma Site.eq_size_of_le {v : Nat} {node : Node} (hv : g.size ≤ v)
    (hnode : (x.addTo g).nodes[v]? = some node) : v = g.size := by
  have := lt_size_of_node hnode
  rw [Site.size_addTo] at this
  omega

lemma Site.eq_size_of_rootOf {v r : Nat} (hv : g.size ≤ v) (hr : (x.addTo g).rootOf v = some r) :
    v = g.size := by
  obtain ⟨node, hnode, -⟩ := Option.bind_eq_some_iff.mp hr
  exact Site.eq_size_of_le hv hnode

/-- A wire from the last user of a bit to the new vertex. -/
lemma Site.leads {b : Leaf × Wire} (hb : b ∈ x.links (x.root g)) {u : Nat}
    (hu : g.frontier.lookup b.1 = some u) : (x.addTo g).Leads u g.size := by
  obtain ⟨e, he, hends⟩ := exists_wire_of_mem (v := g.size) hb hu
  exact ⟨e, Site.mem_edges.mpr (Or.inr (List.mem_append_left _ he)), hends⟩

/-- A slot is known only while a definition is open. -/
lemma Site.exists_root (hg : Wired g) (hknown : ∀ b ∈ x.links (x.root g), g.knows b.1)
    (hscope : x.scope = .inner) (hne : x.qubits ≠ []) :
    ∃ r, g.current = some r ∧ x.root g = some r := by
  obtain ⟨q, hq⟩ := List.exists_mem_of_ne_nil _ hne
  obtain ⟨u, -, hmem⟩ :=
    exists_user (hknown _ (Site.operands_subset_links (Site.mem_operands_qubit hq)))
  obtain ⟨r, hr⟩ := Option.isSome_iff_exists.mp (hg.slot _ hmem hscope)
  exact ⟨r, hr, by simp [Site.root, hscope, hr]⟩

section Threading

variable {r : Nat} {d : Document.Head} (hroot : x.root g = some r) (ht : g.Threaded r d)
  (hfits : ∀ b ∈ x.operands, b.1 ∈ d.slots)

include hroot ht hfits

/-- The users of a slot of the new part lead to it. -/
lemma Site.path {b : Leaf × Wire} (hb : b ∈ x.operands) (hkind : b.1.kind = .qubit) {w : Nat}
    (hws : w < g.size) (hw : (x.addTo g).rootOf w = some r)
    (huses : (x.addTo g).UsesQubit w b.1.id) :
    Relation.TransGen (x.addTo g).Leads w g.size := by
  have hext := x.extends_addTo g
  have hlinks : x.links (x.root g) = x.operands := by simp [Site.links, hroot]
  obtain ⟨u, hu, -, hold⟩ := ht b.1 (hfits b hb)
  rw [hext.rootOf_eq hws] at hw
  rw [hext.usesQubit_iff hws] at huses
  refine Relation.TransGen.tail' ?_ (Site.leads (hlinks ▸ hb) hu)
  exact hext.reflTransGen (hold w hw hkind huses)

/-- The new part is the last user of its slots, and the other slots keep theirs. -/
lemma Site.threaded (hg : Wired g) (hknown : ∀ b ∈ x.links (x.root g), g.knows b.1) :
    (x.addTo g).Threaded r d := by
  have hext := x.extends_addTo g
  have hlinks : x.links (x.root g) = x.operands := by simp [Site.links, hroot]
  intro l hl
  by_cases hmem : l ∈ (x.links (x.root g)).map (·.1)
  · have hnew : (x.addTo g).rootOf g.size = some r := by rw [Site.rootOf_addTo, hroot]
    refine ⟨g.size, by rw [Site.lookup_addTo, if_pos hmem], Or.inr hnew,
      fun w hw hkind huses => ?_⟩
    obtain ⟨b, hbl, rfl⟩ := List.mem_map.mp hmem
    rcases Nat.lt_or_ge w g.size with hws | hws
    · exact (Site.path hroot ht hfits (hlinks ▸ hbl) hkind hws hw huses).to_reflTransGen
    · obtain rfl := Site.eq_size_of_rootOf hws hw
      exact .refl
  · obtain ⟨u, hu, hwithin, hold⟩ := ht l hl
    refine ⟨u, by rw [Site.lookup_addTo, if_neg hmem, hu], hext.within hwithin,
      fun w hw hkind huses => ?_⟩
    rcases Nat.lt_or_ge w g.size with hws | hws
    · rw [hext.rootOf_eq hws] at hw
      rw [hext.usesQubit_iff hws] at huses
      exact hext.reflTransGen (hold w hw hkind huses)
    · -- the new part would have the slot among its own
      obtain rfl := Site.eq_size_of_rootOf hws hw
      rw [UsesQubit, (Site.renders hg hknown).qubits] at huses
      refine absurd ?_ hmem
      rw [hlinks]
      refine List.mem_map.mpr ⟨_, Site.mem_operands_qubit huses, ?_⟩
      have hinner := Document.Head.scope_slots hl
      have hscope := Document.Head.scope_slots (hfits _ (Site.mem_operands_qubit huses))
      obtain ⟨scope, kind, id⟩ := l
      simp_all

end Threading

section Step

variable (hg : Wired g) (hb : Bodied g head)
include hg hb

lemma Site.bodied_global (hop : x.vertex.operation?.isSome) (hscope : x.scope = .global) :
    Bodied (x.addTo g) head := by
  have hext := x.extends_addTo g
  have hroot : x.root g = none := by simp [Site.root, hscope]
  have hlinks : ∀ b ∈ x.links (x.root g), b.1.scope = .global := by
    intro b hb
    simp only [Site.links, Site.operands, hroot, Option.isNone_none, if_true, List.mem_append,
      List.mem_map] at hb
    rcases hb with (⟨q, -, rfl⟩ | ⟨c, -, rfl⟩) | ⟨c, -, rfl⟩
    · exact hscope
    · exact hscope
    · rfl
  have hnew : ∀ v, g.size ≤ v → ∀ r, (x.addTo g).rootOf v ≠ some r := by
    intro v hv r hr
    obtain rfl := Site.eq_size_of_rootOf hv hr
    simp [Site.rootOf_addTo, hroot] at hr
  refine hb.of_extends hg hext ?_ ?_ ?_ ?_ ?_ ?_
  · intro r hr
    obtain ⟨d, hd, ht⟩ := hb.threaded r hr
    refine ⟨d, hd, ht.of_extends hext (fun l hl => ?_) fun v hv => hnew v hv r⟩
    rw [Site.lookup_addTo, if_neg]
    intro hmem
    obtain ⟨b, hb, rfl⟩ := List.mem_map.mp hmem
    have := Document.Head.scope_slots hl
    simp [hlinks b hb] at this
  · exact fun v r hv hr => absurd hr (hnew v hv r)
  · exact fun e _ hv r hr => absurd hr (hnew _ hv r)
  · intro e he hv _
    rcases Site.mem_edges.mp he with hold | he
    · have := hg.target e hold
      omega
    · rcases Site.source_edges he with h | h | ⟨b, hb, h⟩
      · rw [h]
        exact Site.isOuter hop hroot
      · simp [hroot] at h
      · exact hext.isOuter (hg.outer _ (mem_of_lookup h) (hlinks b hb)).1
  · exact fun v r hv hr => absurd hr (hnew v hv r)
  · exact fun u w r q hw _ hr => absurd hr (hnew w hw r)

lemma Site.bodied_inner (hknown : ∀ b ∈ x.links (x.root g), g.knows b.1)
    (hscope : x.scope = .inner) (hne : x.qubits ≠ []) (hcall : x.vertex.isCall)
    (hfits : ∀ d, head = some d → ∀ b ∈ x.operands, b.1 ∈ d.slots) : Bodied (x.addTo g) head := by
  have hext := x.extends_addTo g
  have hrenders := Site.renders hg hknown
  obtain ⟨r, hr, hroot⟩ := Site.exists_root hg hknown hscope hne
  obtain ⟨d, hd, ht⟩ := hb.threaded r hr
  have hlinks : x.links (x.root g) = x.operands := by simp [Site.links, hroot]
  have hrootNew : (x.addTo g).rootOf g.size = some r := by rw [Site.rootOf_addTo, hroot]
  have heq : ∀ {v r'}, g.size ≤ v → (x.addTo g).rootOf v = some r' → v = g.size ∧ r' = r := by
    intro v r' hv hr'
    obtain rfl := Site.eq_size_of_rootOf hv hr'
    rw [hrootNew] at hr'
    exact ⟨rfl, (Option.some.inj hr').symm⟩
  refine hb.of_extends hg hext ?_ ?_ ?_ ?_ ?_ ?_
  · intro r' hr'
    obtain rfl : r = r' := Option.some.inj (hr.symm.trans hr')
    exact ⟨d, hd, Site.threaded hroot ht (hfits d hd) hg hknown⟩
  · intro v r' hv hr'
    obtain ⟨rfl, -⟩ := heq hv hr'
    rw [hrenders.vertex]
    exact hcall
  · intro e he hv r' hr'
    obtain ⟨htarget, rfl⟩ := heq hv hr'
    rcases Site.mem_edges.mp he with hold | he
    · have := hg.target e hold
      omega
    · rcases Site.source_edges he with h | h | ⟨b, hbl, h⟩
      · exact Or.inr (by rw [h, hrootNew])
      · rw [hroot] at h
        exact Or.inl (Option.some.inj h).symm
      · rw [hlinks] at hbl
        obtain ⟨u, hu, hwithin, -⟩ := ht b.1 (hfits d hd b hbl)
        obtain rfl : u = e.source := Option.some.inj (hu.symm.trans h)
        exact hext.within hwithin
  · intro e he hv hr'
    rcases Site.mem_edges.mp he with hold | he
    · have := hg.target e hold
      omega
    · rw [Site.target_edges he, hrootNew] at hr'
      simp at hr'
  · intro v r' hv hr'
    obtain ⟨rfl, -⟩ := heq hv hr'
    obtain ⟨q, hq⟩ := List.exists_mem_of_ne_nil _ hne
    have hlink := hlinks ▸ Site.mem_operands_qubit hq
    obtain ⟨u, hu, hmem⟩ := exists_user (hknown _ hlink)
    exact ⟨u, hg.user _ hmem, Site.leads hlink hu⟩
  · intro u w r' q hws hu hw huq hwq huw
    obtain ⟨rfl, rfl⟩ := heq hws hw
    rw [UsesQubit, hrenders.qubits] at hwq
    exact Site.path hroot ht (hfits d hd) (Site.mem_operands_qubit hwq) rfl huw hu huq

end Step

end Site

namespace Document

/-- Every gate and call has a qubit. -/
def HasQubits (sts : List Statement) : Prop := ∀ st ∈ sts, st.qubits? ≠ some []

instance (sts : List Statement) : Decidable (HasQubits sts) :=
  inferInstanceAs (Decidable (∀ st ∈ sts, st.qubits? ≠ some []))

/-- **The bodies of every graph that is built lie apart**, if callees keep to their slots. -/
theorem build_bodied {sts : List Statement} {g : Graph}
    (h : sts.foldlM Statement.apply .empty = .ok g) (hsize : g.size ≤ 4294967296)
    (hqubits : HasQubits sts) (hslots : SlotsDeclared none sts) :
    Bodied g (sts.foldl Statement.headAfter none) := by
  revert hqubits hslots
  refine build_induct (P := fun sts g => HasQubits sts → SlotsDeclared none sts →
    Bodied g (sts.foldl Statement.headAfter none)) (fun _ _ => bodied_empty) ?_ h hsize
  intro sts st g g' hbuild hsize hst ih hqubits hslots
  obtain ⟨hslots, hfits⟩ := slotsDeclared_snoc.mp hslots
  have hg : Wired g := build_wired hbuild
    (Nat.le_trans (Nat.le_of_lt (size_lt_of_apply hst)) hsize)
  have hb := ih (fun s hs => hqubits s (List.mem_append_left _ hs)) hslots
  rw [List.foldl_append, List.foldl_cons, List.foldl_nil]
  rcases apply_cases hsize hst with ⟨r, rfl, rfl⟩ | ⟨d, rfl, rfl⟩ | ⟨x, hx, hknown, rfl⟩
  · exact Register.bodied hg hb
  · exact Head.bodied hg hb
  · obtain ⟨o, ho, -⟩ := site?_operation hx
    have hhead : st.headAfter (sts.foldl Statement.headAfter none) =
        sts.foldl Statement.headAfter none := by
      cases st <;> first | rfl | simp [Statement.site?] at hx
    rw [hhead]
    cases hscope : x.scope with
    | global => exact Site.bodied_global hg hb (by simp [ho]) hscope
    | inner =>
      obtain ⟨hcall, p, rfl, hpq, hpc⟩ := site?_inner hx hscope
      refine Site.bodied_inner hg hb hknown hscope ?_ hcall fun d hd b hb => ?_
      · have := hqubits (.callee p) (by simp)
        simpa [Statement.qubits?, hpq] using this
      · obtain ⟨hq, hc⟩ := hfits p rfl d hd
        rw [Head.mem_slots]
        simp only [Site.operands, List.mem_append, List.mem_map] at hb
        rcases hb with ⟨q, hmem, rfl⟩ | ⟨c, hmem, rfl⟩
        · exact ⟨hscope, hq q (hpq ▸ hmem)⟩
        · exact ⟨hscope, hc c (hpc ▸ hmem)⟩

end Document
/-! ### Acyclic graphs -/

namespace Graph

/-- No edge leads back to its start. -/
def Loopless (g : Graph) : Prop := ∀ e ∈ g.edges, e.source ≠ e.target

/-- **The order of a built graph is that of its positions**; a loop is the only obstacle. -/
theorem topologicalOrder_ok {g : Graph} (hg : Wired g) {order : List Nat} :
    g.topologicalOrder = .ok order ↔ g.Loopless ∧ order = List.range g.size := by
  by_cases hloop : g.Loopless
  · have hfwd : ∀ v < g.size, ∀ u ∈ g.incoming v, u < v := by
      intro v _ u hu
      obtain ⟨e, he, rfl, rfl⟩ := mem_incoming.mp hu
      exact Nat.lt_of_le_of_ne (hg.source e he) (hloop e he)
    obtain ⟨taken, htaken, heq⟩ := g.exists_taken
    obtain rfl : taken = List.range g.size := by
      rw [htaken.eq_range' (k := 0) (by simp) hfwd, Nat.sub_zero, List.range_eq_range']
    rw [heq, if_pos (by simp)]
    simp [hloop, @eq_comm _ order]
  · refine iff_of_false (fun hok => hloop fun e he => ?_) fun h => hloop h.1
    exact topologicalOrder_source_ne hok he (hg.target e he)

/-- The vertices of a body. -/
def members (g : Graph) (r : Nat) : List Nat :=
  (List.range g.size).filter fun v => g.rootOf v = some r

lemma mem_members {g : Graph} {r v : Nat} : v ∈ g.members r ↔ g.rootOf v = some r := by
  simp only [members, List.mem_filter, List.mem_range, decide_eq_true_eq, and_iff_right_iff_imp]
  exact rootOf_lt_size

/-- A walk does not come back to a vertex that cannot stand in a body. -/
lemma bodyFrom_eq_walk {g : Graph} {r : Nat} (hr : r < 4294967296)
    (hcall : (g.vertex? r).any Vertex.isCall = false) :
    g.bodyFrom r = walk g.outgoing g.calls ((g.outgoing r).map .enter) [] := by
  have hnot : r ∉ g.calls := by simp [calls, hcall]
  rw [bodyFrom, List.erase_of_not_mem hnot, Nat.mod_eq_of_lt hr]

section BodyFrom

variable {g : Graph} {head : Option Document.Head} {r : Nat} (hg : Wired g) (hb : Bodied g head)
  (hloop : g.Loopless) (hsize : g.size ≤ 4294967296) (hr : g.IsRoot r)

include hg hloop in
lemma lt_of_mem_outgoing {v w : Nat} (hw : w ∈ g.outgoing v) : v < w := by
  obtain ⟨e, he, rfl, rfl⟩ := mem_outgoing.mp hw
  exact Nat.lt_of_le_of_ne (hg.source e he) (hloop e he)

include hr hsize in
lemma bodyFrom_eq : g.bodyFrom r =
    walk g.outgoing g.calls ((g.outgoing r).map .enter) [] := by
  obtain ⟨name, params, qubits, clbits, hnode⟩ := hr
  refine bodyFrom_eq_walk (Nat.lt_of_lt_of_le (lt_size_of_node hnode) hsize) ?_
  simp [vertex?, hnode, Vertex.isCall]

lemma walking_enter (lt : Nat → Nat → Prop) (next : Nat → List Nat) (all vs : List Nat) :
    Walking lt next all all (vs.map .enter) [] := by
  refine ⟨by simp, ?_, ?_, trivial⟩
  · exact List.pairwise_map.mpr (List.pairwise_of_forall fun _ _ v hv => by simp at hv)
  · rw [← List.append_nil (vs.map Visit.enter), pending_enter_append]
    trivial

include hg hloop hsize hr in
lemma bodyFrom_nodup : (g.bodyFrom r).Nodup := by
  rw [bodyFrom_eq hsize hr]
  exact (walking_enter (· < ·) g.outgoing g.calls (g.outgoing r)).walk_nodup
    (List.nodup_range.filter _) fun v w hw => lt_of_mem_outgoing hg hloop hw

include hg hb in
/-- The body of `r` is left by no edge. -/
lemma rootOf_of_leads {u v : Nat} (hr : g.IsRoot r) (hu : g.Within r u) (hl : g.Leads u v) :
    g.rootOf v = some r := by
  obtain ⟨e, he, rfl, rfl⟩ := hl
  obtain ⟨name, params, qubits, clbits, hnode⟩ := hr
  have hroot : g.rootOf r = none := by rw [rootOf, hnode]; rfl
  cases ht : g.rootOf e.target with
  | none =>
    obtain ⟨node, hout, hnr, hdef⟩ := hb.outside e he ht
    rcases hu with hu | hu
    · rw [hu, hnode] at hout
      obtain rfl := Option.some.inj hout
      exact absurd rfl (hdef name params qubits clbits)
    · simp [rootOf, hout, hnr] at hu
  | some r' =>
    have hr' := (hg.root _ _ ht).2
    have hroot' : g.rootOf r' = none := by
      obtain ⟨_, _, _, _, hnode'⟩ := hr'
      rw [rootOf, hnode']
      rfl
    rcases hb.inside e he r' ht with hs | hs <;> rcases hu with hu | hu
    · rw [← hs, hu]
    · rw [hs, hroot'] at hu
      simp at hu
    · rw [hu, hroot] at hs
      simp at hs
    · rw [hu] at hs
      exact hs.symm

include hg hb hloop hsize hr

/-- **The walk of a body visits its vertices.** -/
theorem mem_bodyFrom {v : Nat} : v ∈ g.bodyFrom r ↔ g.rootOf v = some r := by
  rw [bodyFrom_eq hsize hr]
  constructor
  · intro hv
    have hinv := walk_induct (P := fun v => g.rootOf v = some r) ?_ ?_ hv
    · exact (by simpa using hinv : v ∈ g.calls ∧ g.rootOf v = some r).2
    · intro u _ hu w hw _
      exact rootOf_of_leads hg hb hr (Or.inr hu) (mem_outgoing.mp hw)
    · intro u hu _
      have hout : u ∈ g.outgoing r := by simpa using hu
      exact rootOf_of_leads hg hb hr (Or.inl rfl) (mem_outgoing.mp hout)
  · -- along the edge that enters a vertex, which comes from an earlier one
    intro hv
    have hsettled := (walking_enter (· < ·) g.outgoing g.calls (g.outgoing r)).walk_settled
      fun v w hw => lt_of_mem_outgoing hg hloop hw
    induction v using Nat.strongRecOn with
    | ind v ih =>
      have hcall : v ∈ g.calls :=
        List.mem_filter.mpr ⟨List.mem_range.mpr (rootOf_lt_size hv), hb.call v r hv⟩
      obtain ⟨u, hu, hl⟩ := hb.entered v r hv
      have hout : v ∈ g.outgoing u := mem_outgoing.mpr hl
      obtain ⟨e, he, rfl, rfl⟩ := hl
      rcases hb.inside e he r hv with hs | hs
      · rw [hs] at hout
        exact mem_walk_of_enter (List.mem_map_of_mem hout) hcall
      · obtain ⟨xs, ys, hsplit⟩ := List.append_of_mem (ih _ hu hs)
        rw [hsplit] at hsettled ⊢
        exact List.mem_append_right _
          (List.mem_cons_of_mem _ (hsettled.mem_of_next hout hcall))

lemma bodyFrom_perm : (g.bodyFrom r).Perm (g.members r) :=
  (List.perm_ext_iff_of_nodup (bodyFrom_nodup hg hloop hsize hr)
    (List.nodup_range.filter _)).mpr fun _ => by
      rw [mem_bodyFrom hg hb hloop hsize hr]
      exact mem_members.symm

/-- **The walk of a body has the users of every slot in the order of their positions.** -/
theorem bodyFrom_filter (q : Nat) :
    (g.bodyFrom r).filter (fun v => q ∈ g.bitsInto v .qubit) =
      (g.members r).filter fun v => q ∈ g.bitsInto v .qubit := by
  have hsettled : Settled g.outgoing g.calls (g.bodyFrom r) := by
    rw [bodyFrom_eq hsize hr]
    exact (walking_enter (· < ·) g.outgoing g.calls (g.outgoing r)).walk_settled
      fun v w hw => lt_of_mem_outgoing hg hloop hw
  have hasc : ((g.bodyFrom r).filter fun v => q ∈ g.bitsInto v .qubit).Pairwise (· < ·) := by
    refine hsettled.pairwise_filter (bodyFrom_nodup hg hloop hsize hr)
      fun u w hu hw huq hwq huw => ?_
    rw [mem_bodyFrom hg hb hloop hsize hr] at hu hw
    replace huq : q ∈ g.bitsInto u .qubit := by simpa using huq
    replace hwq : q ∈ g.bitsInto w .qubit := by simpa using hwq
    have hpath := hb.chained u w r q hu hw huq hwq huw
    -- a path from inside the body stays inside
    clear hw hwq huw huq
    induction hpath using Relation.TransGen.head_induction_on with
    | single hl =>
      have := rootOf_of_leads hg hb hr (Or.inr hu) hl
      refine .single ⟨mem_outgoing.mpr hl, ?_⟩
      exact List.mem_filter.mpr ⟨List.mem_range.mpr (rootOf_lt_size this), hb.call _ r this⟩
    | head hl _ ih =>
      have := rootOf_of_leads hg hb hr (Or.inr hu) hl
      refine .head ⟨mem_outgoing.mpr hl, ?_⟩ (ih this)
      exact List.mem_filter.mpr ⟨List.mem_range.mpr (rootOf_lt_size this), hb.call _ r this⟩
  exact eq_of_ascending hasc ((List.pairwise_lt_range.filter _).filter _)
    fun v => ((bodyFrom_perm hg hb hloop hsize hr).filter _).mem_iff

end BodyFrom

end Graph
end QCircuit
