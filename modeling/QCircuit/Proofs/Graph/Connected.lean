import Mathlib
import QCircuit.Proofs.Graph.Atomicity
import QCircuit.Proofs.Graph.Parts

/-!
The parts of a graph are its connected components.

Two vertices are linked by an edge, or by a condition in a body that one of them calls and that
reads a bit of the other. A part is all that chains of links join to one of its registers.
-/

namespace QCircuit.Graph

/-! ### Links -/

/-- The classical registers that declare a bit. -/
def declaring (g : Graph) (bit : Nat) : Set Nat :=
  {v | ∃ r, g.vertex? v = some (.register r) ∧ r.kind = .clbit ∧ r.declares bit}

/-- A call, and the first register with one of the bits that conditions in its body read. -/
def Reads (g : Graph) (v reg : Nat) : Prop :=
  ∃ o bit, g.vertex? v = some (.caller o) ∧ bit ∈ g.bodyConbits o.name ∧
    IsLeast (g.declaring bit) reg

/-- Two vertices that share an edge, or one of which is a call that reads a bit of the other. -/
def Linked (g : Graph) (v w : Nat) : Prop :=
  (v < g.size ∧ w < g.size) ∧ (g.Touches v w ∨ g.Reads v w ∨ g.Reads w v)

section Links

variable {g : Graph}

lemma Linked.symm {v w : Nat} (h : g.Linked v w) : g.Linked w v :=
  ⟨h.1.symm, h.2.imp Touches.symm Or.symm⟩

lemma clbitRegisters_ascending (g : Graph) : g.clbitRegisters.Pairwise fun p q => p.1 < q.1 := by
  have hpositions : g.vertices.zipIdx.Pairwise fun p q => p.2 < q.2 := by
    rw [← List.pairwise_map (f := Prod.snd) (R := (· < ·)), List.zipIdx_map_snd]
    exact List.pairwise_lt_range'
  refine hpositions.filterMap _ fun p q hlt a ha b hb => ?_
  obtain ⟨vertex, v⟩ := p
  obtain ⟨vertex', w⟩ := q
  cases vertex <;> simp at ha
  cases vertex' <;> simp at hb
  obtain ⟨-, rfl⟩ := ha
  obtain ⟨-, rfl⟩ := hb
  exact hlt

/-- The search among the classical registers finds the first one that declares a bit. -/
lemma isLeast_of_find? {bit reg : Nat} {r : Register}
    (h : g.clbitRegisters.find? (fun p => p.2.declares bit) = some (reg, r)) :
    IsLeast (g.declaring bit) reg := by
  obtain ⟨hr, before, after, hsplit, hbefore⟩ := List.find?_eq_some_iff_append.mp h
  have hmem : (reg, r) ∈ g.clbitRegisters := by simp [hsplit]
  obtain ⟨hreg, hkind⟩ := mem_clbitRegisters.mp hmem
  refine ⟨⟨r, hreg, hkind, hr⟩, ?_⟩
  rintro w ⟨r', hw, hkind', hr'⟩
  have hmem' := mem_clbitRegisters.mpr ⟨hw, hkind'⟩
  have hasc := g.clbitRegisters_ascending
  rw [hsplit] at hmem' hasc
  rcases List.mem_append.mp hmem' with hfirst | hrest
  · simpa [hr'] using hbefore _ hfirst
  · rcases List.mem_cons.mp hrest with heq | hlater
    · exact (Prod.mk.inj heq).1.ge
    · have := (List.pairwise_cons.mp (List.pairwise_append.mp hasc).2.1).1 _ hlater
      exact Nat.le_of_lt this

lemma mem_bodyLinks_iff {v reg : Nat} : (v, reg) ∈ g.bodyLinks ↔ g.Reads v reg := by
  rw [mem_bodyLinks_iff_find?]
  constructor
  · rintro ⟨o, bit, r, hv, hbit, hfind⟩
    exact ⟨o, bit, hv, hbit, isLeast_of_find? hfind⟩
  · rintro ⟨o, bit, hv, hbit, hleast⟩
    obtain ⟨r, hreg, hkind, hr⟩ := hleast.1
    obtain ⟨reg', r', hfind⟩ := exists_find?_declares hreg hkind hr
    obtain rfl := (isLeast_of_find? hfind).unique hleast
    exact ⟨o, bit, r', hv, hbit, hfind⟩

lemma steps_joined : Steps (g.joined g.bodyLinks) (List.range g.size) = g.Linked := by
  ext v w
  simp only [Steps, Linked, List.mem_range, mem_joined, mem_bodyLinks_iff]

end Links

/-! ### Classes -/

/-- The parts, before they are put in order. -/
def classes (g : Graph) : List (List Nat) :=
  partitionFrom (g.joined g.bodyLinks) g.registers (List.range g.size)

/-- The registers among some vertices. -/
def registersIn (g : Graph) (part : List Nat) : Set Nat :=
  {v | v ∈ part ∧ ∃ r, g.vertex? v = some (.register r)}

section Classes

variable {g : Graph} {part : List Nat}

/-- A class is what links join to one of its registers. -/
lemma exists_register_of_class (hpart : part ∈ g.classes) : ∃ reg ∈ g.registers,
    ∀ v, v ∈ part ↔ Relation.ReflTransGen g.Linked reg v := by
  have hsymm : ∀ v w, Steps (g.joined g.bodyLinks) (List.range g.size) v w →
      Steps (g.joined g.bodyLinks) (List.range g.size) w v := by
    simpa only [steps_joined] using fun v w => Linked.symm
  obtain ⟨seed, hseed, -, hclass⟩ := exists_seed_of_part hsymm (fun _ hv => hv)
    (fun _ _ _ hstep => hstep.1.2) hpart
  exact ⟨seed, hseed, steps_joined ▸ hclass⟩

lemma mem_class_iff (hpart : part ∈ g.classes) {v w : Nat} (hv : v ∈ part) :
    w ∈ part ↔ Relation.ReflTransGen g.Linked v w := by
  rw [← steps_joined]
  exact mem_part_iff (by simpa only [steps_joined] using fun v w => Linked.symm) hpart hv

lemma exists_isLeast_registersIn (hpart : part ∈ g.classes) :
    ∃ a, IsLeast (g.registersIn part) a := by
  obtain ⟨reg, hreg, hclass⟩ := exists_register_of_class hpart
  have hne : (g.registersIn part).Nonempty :=
    ⟨reg, (hclass reg).mpr .refl, mem_registers_iff.mp hreg⟩
  exact ⟨sInf (g.registersIn part), Nat.sInf_mem hne, fun _ hb => Nat.sInf_le hb⟩

lemma classes_ascending : g.classes.Pairwise fun p q =>
    ∃ a b, IsLeast (g.registersIn p) a ∧ IsLeast (g.registersIn q) b ∧ a < b := by
  have hasc : g.registers.Pairwise (· < ·) := List.pairwise_lt_range.filter _
  refine (partitionFrom_ascending hasc).imp_of_mem fun {p q} hp hq => ?_
  rintro ⟨c, hc, hcreg, hlt⟩
  obtain ⟨a, ha⟩ := exists_isLeast_registersIn hp
  obtain ⟨b, hb⟩ := exists_isLeast_registersIn hq
  refine ⟨a, b, ha, hb, ?_⟩
  have hac := ha.2 ⟨hc, mem_registers_iff.mp hcreg⟩
  exact Nat.lt_of_le_of_lt hac (hlt b hb.1.1 (mem_registers_iff.mpr hb.1.2))

end Classes

/-- The parts are the classes of what links join to a register, each in the given order, by their
first registers. -/
structure Connected (g : Graph) (order : List Nat) (parts : List (List Nat)) : Prop where
  covered : ∀ v, (∃ part ∈ parts, v ∈ part) ↔
    ∃ reg r, g.vertex? reg = some (.register r) ∧ Relation.ReflTransGen g.Linked reg v
  joined : ∀ part ∈ parts, ∀ v ∈ part, ∀ w, w ∈ part ↔ Relation.ReflTransGen g.Linked v w
  once : parts.flatten.Nodup
  ordered : ∀ part ∈ parts, part.Sublist order
  ascending : parts.Pairwise fun p q =>
    ∃ a b, IsLeast (g.registersIn p) a ∧ IsLeast (g.registersIn q) b ∧ a < b

/-- **The parts of a graph are its connected components**: each is all that chains of links join to
one of its registers, in topological order. The one with the first register comes first. -/
theorem decompose_connected {g : Graph} {order : List Nat} (h : g.topologicalOrder = .ok order) :
    g.Connected order (g.decompose order) := by
  have hperm := topologicalOrder_perm h
  -- the order has all vertices, so nothing of a class is left out
  have hmem : ∀ p ∈ g.classes, ∀ v, v ∈ order.filter (· ∈ p) ↔ v ∈ p := by
    intro p hp v
    simpa using fun hv => hperm.mem_iff.mpr (mem_unvisited_of_part hp hv)
  have hregs : ∀ p ∈ g.classes, g.registersIn (order.filter (· ∈ p)) = g.registersIn p := by
    intro p hp
    ext v
    exact and_congr_left fun _ => hmem p hp v
  have hparts : ∀ {part}, part ∈ g.decompose order ↔ ∃ p ∈ g.classes, order.filter (· ∈ p) = part :=
    List.mem_map
  refine ⟨fun v => ?_, ?_, ?_, ?_, ?_⟩
  · constructor
    · rintro ⟨part, hpart, hv⟩
      obtain ⟨p, hp, rfl⟩ := hparts.mp hpart
      obtain ⟨reg, hreg, hclass⟩ := exists_register_of_class hp
      obtain ⟨r, hr⟩ := mem_registers_iff.mp hreg
      exact ⟨reg, r, hr, (hclass v).mp ((hmem p hp v).mp hv)⟩
    · rintro ⟨reg, r, hr, hpath⟩
      obtain ⟨p, hp, hregp⟩ : ∃ p ∈ g.classes, reg ∈ p :=
        exists_part_of_seed (mem_registers_iff.mpr ⟨r, hr⟩) (List.mem_range.mpr (lt_size_of_vertex hr))
      exact ⟨_, hparts.mpr ⟨p, hp, rfl⟩, (hmem p hp v).mpr ((mem_class_iff hp hregp).mpr hpath)⟩
  · intro part hpart v hv w
    obtain ⟨p, hp, rfl⟩ := hparts.mp hpart
    rw [hmem p hp] at hv ⊢
    exact mem_class_iff hp hv
  · have hok : g.components = .ok (g.decompose order) := by
      rw [components, h]
      rfl
    exact (flatten_of_components hok).1
  · intro part hpart
    obtain ⟨p, hp, rfl⟩ := hparts.mp hpart
    exact List.filter_sublist
  · refine List.pairwise_map.mpr (classes_ascending.imp_of_mem fun {p q} hp hq hlt => ?_)
    rw [hregs p hp, hregs q hq]
    exact hlt

/-- A call of a body with a condition on the only bit, and a gate with one that is set after the
register is declared; the third qubit is on its own. -/
def sharedBitCalls : List Call :=
  [.register ⟨.qubit, 0, 1⟩, .register ⟨.qubit, 1, 1⟩, .define "flip" 0 1 0,
    .callee "X" [] [0] [] [] false, .caller "flip" [] [1] [], .op "H" [] [0] [],
    .register ⟨.qubit, 2, 1⟩, .register ⟨.clbit, 0, 1⟩, .condition 5 [0] .eq 1,
    .condition 7 [0] .eq 1]

/-- The bit joins the call to the gate, which comes after the bit in their part. -/
theorem sharedBit_connected :
    (empty.run sharedBitCalls).decompose [0, 1, 2, 3, 4, 5, 6, 8, 9, 10, 11, 7] =
        [[0, 1, 2, 3, 6, 10, 11, 7], [8, 9]] ∧
      Relation.ReflTransGen (empty.run sharedBitCalls).Linked 6 7 ∧
      ¬ Relation.ReflTransGen (empty.run sharedBitCalls).Linked 6 9 ∧
      ¬ ∃ reg r, (empty.run sharedBitCalls).vertex? reg = some (.register r) ∧
        Relation.ReflTransGen (empty.run sharedBitCalls).Linked reg 5 := by
  have horder : (empty.run sharedBitCalls).topologicalOrder =
      .ok [0, 1, 2, 3, 4, 5, 6, 8, 9, 10, 11, 7] := by cbv
  have hparts : (empty.run sharedBitCalls).decompose [0, 1, 2, 3, 4, 5, 6, 8, 9, 10, 11, 7] =
      [[0, 1, 2, 3, 6, 10, 11, 7], [8, 9]] := by cbv
  obtain ⟨hcovered, hjoined, -, -, -⟩ := decompose_connected horder
  rw [hparts] at hcovered hjoined
  have hclass := hjoined [0, 1, 2, 3, 6, 10, 11, 7] (by decide) 6 (by decide)
  refine ⟨hparts, (hclass 7).mp (by decide), ?_, ?_⟩
  · rw [← hclass 9]
    decide
  · rw [← hcovered 5]
    decide

end QCircuit.Graph
