import Mathlib.Data.List.Forall2
import QCircuit.Proofs.Graph.Bodies

/-!
The vertices of a graph and the statements of its document.

Gates and calls outside of definitions stand in the graph in the order of the document, and so do
the parts of every definition. The first definition of a name in the graph is the first one in the
document.
-/

namespace QCircuit

open QCircuit.Graph

namespace Document

/-! ### What a document says -/

def Statement.isDefine : Statement → Bool
  | .define _ => true
  | _ => false

/-- Whether the statement is a gate or a call outside of all definitions. -/
def Statement.isTop : Statement → Bool
  | .op _ | .caller _ => true
  | _ => false

def Statement.part? : Statement → Option Part
  | .callee p => some p
  | _ => none

def Statement.register? : Statement → Option Register
  | .register r => some r
  | _ => none

lemma mem_registers {sts : List Statement} {r : Register} :
    r ∈ sts.filterMap Statement.register? ↔ .register r ∈ sts := by
  rw [List.mem_filterMap]
  constructor
  · rintro ⟨st, hst, hr⟩
    cases st <;> simp [Statement.register?] at hr
    exact hr ▸ hst
  · exact fun h => ⟨_, h, rfl⟩

/-- The parts of the definition before these statements. -/
def partsOf (sts : List Statement) : List Part :=
  (sts.takeWhile (!·.isDefine)).filterMap Statement.part?

/-- The parts of the first definition of this name. -/
def bodyOf? (name : String) : List Statement → Option (List Part)
  | [] => none
  | .define d :: sts => if d.name = name then some (partsOf sts) else bodyOf? name sts
  | _ :: sts => bodyOf? name sts

/-- Registers of one kind have no bit in common, and their bits are words. -/
structure RegistersApart (sts : List Statement) : Prop where
  apart : (sts.filterMap Statement.register?).Pairwise fun r s =>
    r.kind = s.kind → ∀ b, r.declares b → ¬ s.declares b
  bounded : ∀ r ∈ sts.filterMap Statement.register?, r.start + r.count < 4294967296

lemma bodyOf?_eq_some {name : String} {sts : List Statement} {parts : List Part}
    (h : bodyOf? name sts = some parts) :
    ∃ pre d post, sts = pre ++ .define d :: post ∧ d.name = name ∧
      (∀ d', .define d' ∈ pre → d'.name ≠ name) ∧ parts = partsOf post := by
  induction sts with
  | nil => simp [bodyOf?] at h
  | cons st sts ih =>
    have hskip : bodyOf? name sts = some parts → (∀ d', st = .define d' → d'.name ≠ name) →
        ∃ pre d post, st :: sts = pre ++ .define d :: post ∧ d.name = name ∧
          (∀ d', .define d' ∈ pre → d'.name ≠ name) ∧ parts = partsOf post := by
      intro h' hst
      obtain ⟨pre, d, post, rfl, hd, hpre, hparts⟩ := ih h'
      refine ⟨st :: pre, d, post, rfl, hd, fun d' hd' => ?_, hparts⟩
      rcases List.mem_cons.mp hd' with he | hd'
      · exact hst d' he.symm
      · exact hpre d' hd'
    cases st with
    | define d =>
      rw [bodyOf?] at h
      split at h
      · next hd =>
        exact ⟨[], d, sts, rfl, hd, by simp, (Option.some.inj h).symm⟩
      · next hd => exact hskip h fun d' he => by cases he; exact hd
    | register r => exact hskip h (by simp)
    | op i => exact hskip h (by simp)
    | caller i => exact hskip h (by simp)
    | callee p => exact hskip h (by simp)

lemma bodyOf?_eq_none {name : String} {sts : List Statement} (h : bodyOf? name sts = none) :
    ∀ d, .define d ∈ sts → d.name ≠ name := by
  induction sts with
  | nil => simp
  | cons st sts ih =>
    intro d hd
    cases st with
    | define d' =>
      rw [bodyOf?] at h
      split at h
      · simp at h
      · next hne =>
        rcases List.mem_cons.mp hd with he | hd
        · cases he
          exact hne
        · exact ih h d hd
    | _ => exact ih h d (by simpa using hd)

lemma partsOf_snoc (sts : List Statement) (st : Statement) :
    partsOf (sts ++ [st]) =
      if sts.all (!·.isDefine) then partsOf sts ++ st.part?.toList else partsOf sts := by
  induction sts with
  | nil => cases st <;> rfl
  | cons s sts ih =>
    cases hs : s.isDefine with
    | true => simp [partsOf, hs]
    | false =>
      have hcons : ∀ l, partsOf (s :: l) = s.part?.toList ++ partsOf l := by
        intro l
        simp only [partsOf, List.takeWhile_cons, hs, Bool.not_false, if_true, List.filterMap_cons]
        cases s.part? <;> rfl
      rw [List.cons_append, hcons, hcons, ih, List.all_cons, hs]
      simp only [Bool.not_false, Bool.true_and]
      split <;> simp

/-! ### Gates and calls outside of definitions -/

/-- A site outside of definitions uses global bits. -/
lemma site?_isTop {st : Statement} {x : Site} (h : st.site? = some x) :
    x.scope = .global ↔ st.isTop := by
  cases st <;> simp only [Statement.site?, Option.map_eq_some_iff, reduceCtorEq] at h
  all_goals
    obtain ⟨o, -, rfl⟩ := h
    simp [Statement.isTop]

end Document

/-- Whether a position is a gate or a call outside of definitions. -/
def Graph.isTop (g : Graph) (v : Nat) : Bool :=
  (g.vertex? v).any (·.operation?.isSome) && (g.rootOf v).isNone

/-- The gates and calls outside of definitions. -/
def Graph.tops (g : Graph) : List Nat := (List.range g.size).filter g.isTop

namespace Document

/-- A position holds what a statement says, and edges join it to the registers of its bits. -/
def Statement.StandsAt (g : Graph) (v : Nat) (st : Statement) : Prop :=
  ∃ x, st.site? = some x ∧ Renders g v x ∧
    ∀ b ∈ x.links none, b.1.scope = .global → g.Owned b.1 v

lemma Statement.StandsAt.extends {g g' : Graph} {v : Nat} {st : Statement} (h : st.StandsAt g v)
    (hext : Extends g g') : st.StandsAt g' v := by
  obtain ⟨x, hx, hr, ho⟩ := h
  exact ⟨x, hx, hr.extends hext, fun b hb hs => hext.owned (ho b hb hs)⟩

section Positions

variable {m n : Nat} {P Q : Nat → Bool}

/-- Positions that are added and not wanted. -/
lemma filter_range_of_le (hmn : m ≤ n) (hold : ∀ v < m, P v = Q v)
    (hnew : ∀ v < n, m ≤ v → P v = false) :
    (List.range n).filter P = (List.range m).filter Q := by
  obtain ⟨k, rfl⟩ := Nat.exists_eq_add_of_le hmn
  have hnil : ((List.range k).map (m + ·)).filter P = [] := by
    refine List.filter_eq_nil_iff.mpr fun v hv => ?_
    obtain ⟨i, hi, rfl⟩ := List.mem_map.mp hv
    have := List.mem_range.mp hi
    simp [hnew (m + i) (by omega) (by omega)]
  rw [List.range_add, List.filter_append, hnil, List.append_nil]
  exact List.filter_congr fun v hv => hold v (List.mem_range.mp hv)

/-- One position is added. -/
lemma filter_range_succ (hold : ∀ v < m, P v = Q v) :
    (List.range (m + 1)).filter P = (List.range m).filter Q ++ if P m then [m] else [] := by
  rw [List.range_succ, List.filter_append, List.filter_singleton]
  congr 1
  · exact List.filter_congr fun v hv => hold v (List.mem_range.mp hv)
  · cases P m <;> rfl

end Positions

/-- **The gates and calls outside of definitions stand in the order of the document.** -/
theorem build_tops {sts : List Statement} {g : Graph}
    (h : sts.foldlM Statement.apply .empty = .ok g) (hsize : g.size ≤ 4294967296)
    (hqubits : HasQubits sts) :
    List.Forall₂ (fun v st => Statement.StandsAt g v st) g.tops (sts.filter (·.isTop)) := by
  revert hqubits
  refine build_induct (P := fun sts g => HasQubits sts →
    List.Forall₂ (fun v st => Statement.StandsAt g v st) g.tops (sts.filter (·.isTop)))
    (fun _ => by simp [Graph.tops, Graph.empty, Graph.size]) ?_ h hsize
  intro sts st g g' hbuild hsize hst ih hqubits
  have hg : Wired g := build_wired hbuild
    (Nat.le_trans (Nat.le_of_lt (size_lt_of_apply hst)) hsize)
  have hext := apply_extends hsize hst
  have hold := (ih fun s hs => hqubits s (List.mem_append_left _ hs)).imp
    fun _ _ hs => Statement.StandsAt.extends hs hext
  have hsame : ∀ v < g.size, g'.isTop v = g.isTop v := fun v hv => by
    rw [isTop, isTop, hext.vertex?_eq hv, hext.rootOf_eq hv]
  rw [List.filter_append]
  rcases apply_cases hsize hst with ⟨r, rfl, rfl⟩ | ⟨d, rfl, rfl⟩ | ⟨x, hx, hknown, rfl⟩
  · have htops : (r.addTo g).tops = g.tops := by
      refine filter_range_of_le hext.size_le hsame fun v hlt hv => ?_
      obtain ⟨node, hnode⟩ := exists_node hlt
      rcases r.node_addTo g hv hnode with ⟨-, rfl⟩ | ⟨i, -, -, rfl⟩
      · simp [isTop, vertex?, hnode, Vertex.operation?]
      · cases hk : r.kind <;> simp [isTop, vertex?, hnode, hk, Vertex.init, Vertex.operation?]
    rw [htops]
    simpa [Statement.isTop] using hold
  · have htops : (d.addTo g).tops = g.tops := by
      rw [Graph.tops, Head.size_addTo, filter_range_succ hsame]
      simp [isTop, vertex?, Head.node_root, Vertex.operation?, Graph.tops]
    rw [htops]
    simpa [Statement.isTop] using hold
  · have htops : (x.addTo g).tops = g.tops ++ if (x.root g).isNone then [g.size] else [] := by
      obtain ⟨o, ho, -⟩ := site?_operation hx
      rw [Graph.tops, Site.size_addTo, filter_range_succ hsame]
      simp [isTop, vertex?, Site.node_addTo, ho, Site.rootOf_addTo, Graph.tops]
    rw [htops]
    refine List.rel_append hold ?_
    cases hscope : x.scope with
    | global =>
      have hroot : x.root g = none := by simp [Site.root, hscope]
      have htop : st.isTop := (site?_isTop hx).mp hscope
      rw [hroot] at hknown ⊢
      simp only [Option.isNone_none, if_true, List.filter_singleton, htop, cond_true]
      refine .cons ⟨x, hx, Site.renders hg (by rwa [hroot]), fun b hb hs => ?_⟩ .nil
      exact Site.owned hg (by rwa [hroot]) (by rwa [hroot]) hs
    | inner =>
      obtain ⟨-, p, rfl, -, -⟩ := site?_inner hx hscope
      have hne : x.qubits ≠ [] := fun he =>
        hqubits (.callee p) (by simp) (by rw [site?_qubits hx, he])
      obtain ⟨r, -, hroot⟩ := Site.exists_root hg hknown hscope hne
      simp [hroot, Statement.isTop]

/-! ### Definitions -/

/-- A position holds what a statement says. -/
def Statement.RendersAt (g : Graph) (v : Nat) (st : Statement) : Prop :=
  ∃ x, st.site? = some x ∧ Renders g v x

lemma Statement.RendersAt.extends {g g' : Graph} {v : Nat} {st : Statement}
    (h : st.RendersAt g v) (hext : Extends g g') : st.RendersAt g' v := by
  obtain ⟨x, hx, hr⟩ := h
  exact ⟨x, hx, hr.extends hext⟩

/-- What holds of a body while statements follow its definition. -/
structure Filled (r : Nat) (sts : List Statement) (g : Graph) : Prop where
  wired : Wired g
  lt_size : r < g.size
  current : sts.all (!·.isDefine) → g.current = some r
  closed : sts.all (!·.isDefine) = false → ∃ r', r < r' ∧ g.current = some r'
  members : List.Forall₂ (fun v p => (Statement.callee p).RendersAt g v) (g.members r) (partsOf sts)

lemma filled_nil {d : Head} {g : Graph} (hg : Wired g) : Filled g.size [] (d.addTo g) := by
  refine ⟨Head.wired hg, by simp, fun _ => rfl, by simp, ?_⟩
  have hnil : (d.addTo g).members g.size = [] := by
    refine List.filter_eq_nil_iff.mpr fun v _ hv => ?_
    have hv : (d.addTo g).rootOf v = some g.size := by simpa using hv
    rcases Nat.lt_or_ge v g.size with hlt | hge
    · rw [(d.extends_addTo g).rootOf_eq hlt] at hv
      have := (hg.root v _ hv).1
      omega
    · simp [Head.rootOf_new hge] at hv
  rw [hnil]
  exact .nil

section Step

variable {r : Nat} {sts : List Statement} {st : Statement} {g g' : Graph} (h : Filled r sts g)
  (hwired : Wired g') (hext : Extends g g')

include h hext in
lemma Filled.forall₂_members :
    List.Forall₂ (fun v p => (Statement.callee p).RendersAt g' v) (g.members r) (partsOf sts) :=
  h.members.imp fun _ _ hs => Statement.RendersAt.extends hs hext

include h hwired hext in
/-- A statement that is no part keeps the body as it is. -/
lemma Filled.keep (hdef : st.isDefine = false) (hcur : g'.current = g.current)
    (hpart : st.part? = none) (hmem : g'.members r = g.members r) :
    Filled r (sts ++ [st]) g' := by
  have hall : (sts ++ [st]).all (!·.isDefine) = sts.all (!·.isDefine) := by simp [hdef]
  have hparts : partsOf (sts ++ [st]) = partsOf sts := by
    rw [partsOf_snoc, hpart]
    split <;> simp
  refine ⟨hwired, Nat.lt_of_lt_of_le h.lt_size hext.size_le, ?_, ?_, ?_⟩
  · rw [hall, hcur]
    exact h.current
  · rw [hall, hcur]
    exact h.closed
  · rw [hmem, hparts]
    exact h.forall₂_members hext

include h in
/-- A part goes to the end of the body, as long as no other definition follows. -/
lemma Filled.part {p : Part} {x : Site} (hx : (Statement.callee p).site? = some x)
    (hwired : Wired (x.addTo g)) (hknown : ∀ b ∈ x.links (x.root g), g.knows b.1)
    (hmem : (x.addTo g).members r = g.members r ++ if x.root g = some r then [g.size] else [])
    {r' : Nat} (hcur : g.current = some r') (hroot : x.root g = some r') :
    Filled r (sts ++ [.callee p]) (x.addTo g) := by
  have hext := x.extends_addTo g
  have hall : (sts ++ [Statement.callee p]).all (!·.isDefine) = sts.all (!·.isDefine) := by
    rw [List.all_append]
    exact Bool.and_true _
  refine ⟨hwired, Nat.lt_of_lt_of_le h.lt_size hext.size_le, ?_, ?_, ?_⟩
  · rw [hall]
    exact h.current
  · rw [hall]
    exact h.closed
  · rw [hmem, partsOf_snoc, hroot]
    cases hc : sts.all (!·.isDefine) with
    | true =>
      obtain rfl : r' = r := Option.some.inj (hcur.symm.trans (h.current hc))
      refine List.rel_append (h.forall₂_members hext) ?_
      simp only [if_true, Statement.part?, Option.toList_some]
      exact .cons ⟨x, hx, Site.renders h.wired hknown⟩ .nil
    | false =>
      obtain ⟨r'', hlt', hcur'⟩ := h.closed hc
      have hne : r' ≠ r := by
        have := Option.some.inj (hcur.symm.trans hcur')
        omega
      simpa [hne] using h.forall₂_members hext

end Step

lemma Filled.snoc {r : Nat} {sts : List Statement} {st : Statement} {g g' : Graph}
    (h : Filled r sts g) (hsize : g'.size ≤ 4294967296) (hst : st.apply g = .ok g')
    (hqubits : st.qubits? ≠ some []) : Filled r (sts ++ [st]) g' := by
  have hext := apply_extends hsize hst
  have hwired := apply_wired h.wired hsize hst
  rcases apply_cases hsize hst with ⟨reg, rfl, rfl⟩ | ⟨d, rfl, rfl⟩ | ⟨x, hx, hknown, rfl⟩
  · refine h.keep hwired hext rfl rfl rfl ?_
    exact filter_range_of_le hext.size_le (fun v hv => by rw [hext.rootOf_eq hv])
      fun v _ hv => by simp [Register.rootOf_new hv]
  · refine ⟨hwired, Nat.lt_of_lt_of_le h.lt_size hext.size_le, by simp [Statement.isDefine],
      fun _ => ⟨g.size, h.lt_size, rfl⟩, ?_⟩
    have hmem : (d.addTo g).members r = g.members r :=
      filter_range_of_le hext.size_le (fun v hv => by rw [hext.rootOf_eq hv])
        fun v _ hv => by simp [Head.rootOf_new hv]
    have hparts : partsOf (sts ++ [.define d]) = partsOf sts := by
      rw [partsOf_snoc]
      split <;> simp [Statement.part?]
    rw [hmem, hparts]
    exact h.forall₂_members hext
  · have hmem : (x.addTo g).members r =
        g.members r ++ if x.root g = some r then [g.size] else [] := by
      rw [Graph.members, Site.size_addTo, filter_range_succ fun v hv => by rw [hext.rootOf_eq hv]]
      simp [Site.rootOf_addTo, Graph.members]
    cases hscope : x.scope with
    | global =>
      have hroot : x.root g = none := by simp [Site.root, hscope]
      have hst' : st.isDefine = false ∧ st.part? = none := by
        cases st <;> simp_all [Statement.site?, Statement.isDefine, Statement.part?]
        obtain ⟨o, -, rfl⟩ := hx
        simp at hscope
      exact h.keep hwired hext hst'.1 rfl hst'.2 (by simp [hmem, hroot])
    | inner =>
      obtain ⟨-, p, rfl, -, -⟩ := site?_inner hx hscope
      have hne : x.qubits ≠ [] := fun he => hqubits (by rw [site?_qubits hx, he])
      obtain ⟨r', hcur, hroot⟩ := Site.exists_root h.wired hknown hscope hne
      exact h.part hx hwired hknown hmem hcur hroot

/-- **The vertices of a body stand in the order of the parts.** -/
theorem build_members {d : Head} {sts : List Statement} {g₀ g : Graph} (hg : Wired g₀)
    (h : sts.foldlM Statement.apply (d.addTo g₀) = .ok g) (hsize : g.size ≤ 4294967296)
    (hqubits : HasQubits sts) : Filled g₀.size sts g := by
  revert hqubits
  refine build_induct (P := fun sts g => HasQubits sts → Filled g₀.size sts g)
    (fun _ => filled_nil hg) ?_ h hsize
  intro sts st g g' _ hsize hst ih hqubits
  exact (ih fun s hs => hqubits s (List.mem_append_left _ hs)).snoc hsize hst
    (hqubits st (by simp))

/-- The vertices that a statement adds. -/
lemma apply_vertex {g g' : Graph} {st : Statement} (hsize : g'.size ≤ 4294967296)
    (hst : st.apply g = .ok g') {v : Nat} (hge : g.size ≤ v) {vertex : Vertex}
    (hv : g'.vertex? v = some vertex) :
    (∃ r, st = .register r ∧ (v = g.size ∧ vertex = .register r ∨ vertex = .init r.kind)) ∨
      (∃ d, st = .define d ∧ vertex = .define d.name d.params d.qubits d.clbits) ∨
        ∃ x o, st.site? = some x ∧ vertex = x.vertex ∧ vertex.operation? = some o := by
  obtain ⟨node, hnode, rfl⟩ := Option.map_eq_some_iff.mp hv
  rcases apply_cases hsize hst with ⟨r, rfl, rfl⟩ | ⟨d, rfl, rfl⟩ | ⟨x, hx, -, rfl⟩
  · rcases r.node_addTo g hge hnode with ⟨rfl, rfl⟩ | ⟨i, -, -, rfl⟩
    · exact Or.inl ⟨r, rfl, Or.inl ⟨rfl, rfl⟩⟩
    · exact Or.inl ⟨r, rfl, Or.inr rfl⟩
  · have hlt := lt_size_of_node hnode
    obtain rfl : v = g.size := by
      rw [Head.size_addTo] at hlt
      omega
    rw [Head.node_root] at hnode
    obtain rfl := Option.some.inj hnode
    exact Or.inr (Or.inl ⟨d, rfl, rfl⟩)
  · obtain rfl := Site.eq_size_of_le hge hnode
    rw [Site.node_addTo] at hnode
    obtain rfl := Option.some.inj hnode
    obtain ⟨o, ho, -⟩ := site?_operation hx
    exact Or.inr (Or.inr ⟨x, o, hx, rfl, ho⟩)

lemma build_defines {sts : List Statement} {g : Graph}
    (h : sts.foldlM Statement.apply .empty = .ok g) (hsize : g.size ≤ 4294967296) {v : Nat}
    {name : String} {params qubits clbits : Nat}
    (hv : g.vertex? v = some (.define name params qubits clbits)) :
    .define ⟨name, params, qubits, clbits⟩ ∈ sts := by
  refine build_induct (P := fun sts g => ∀ v,
    g.vertex? v = some (.define name params qubits clbits) →
    .define ⟨name, params, qubits, clbits⟩ ∈ sts) (by simp [vertex?, Graph.empty]) ?_ h hsize v hv
  clear hv
  intro sts st g g' _ hsize hst ih v hv
  rcases Nat.lt_or_ge v g.size with hlt | hge
  · rw [(apply_extends hsize hst).vertex?_eq hlt] at hv
    exact List.mem_append_left _ (ih v hv)
  · rcases apply_vertex hsize hst hge hv with
      ⟨r, -, ⟨-, he⟩ | he⟩ | ⟨d, rfl, he⟩ | ⟨x, o, -, -, ho⟩
    · simp at he
    · exact absurd he.symm (Vertex.init_ne_define _ _ _ _ _)
    · simp only [Vertex.define.injEq] at he
      obtain ⟨rfl, rfl, rfl, rfl⟩ := he
      simp
    · simp [Vertex.operation?] at ho

/-- Whether a vertex defines this name. -/
def definesName (name : String) : Vertex → Bool
  | .define n .. => n = name
  | _ => false

lemma findDefinition?_eq (g : Graph) (name : String) :
    g.findDefinition? name = g.vertices.findIdx? (definesName name) := by
  unfold Graph.findDefinition?
  congr 1

lemma not_definesName {sts : List Statement} {g : Graph} {name : String}
    (h : sts.foldlM Statement.apply .empty = .ok g) (hsize : g.size ≤ 4294967296)
    (hnot : ∀ d, .define d ∈ sts → d.name ≠ name) :
    ∀ v ∈ g.vertices, definesName name v = false := by
  intro vertex hmem
  obtain ⟨i, hi⟩ := List.mem_iff_getElem?.mp hmem
  cases vertex with
  | define n params qubits clbits =>
    have hv : g.vertex? i = some (.define n params qubits clbits) := by
      rw [vertex?, ← Array.getElem?_toList]
      rwa [Graph.vertices, List.getElem?_map] at hi
    simpa [definesName] using hnot _ (build_defines h hsize hv)
  | _ => rfl

/-- **The first definition of a name in the graph is the first one in the document**, and its body
holds the parts in their order. -/
theorem build_findDefinition {sts : List Statement} {g : Graph}
    (h : sts.foldlM Statement.apply .empty = .ok g) (hsize : g.size ≤ 4294967296)
    (hqubits : HasQubits sts) {name : String} {r : Nat} (hr : g.findDefinition? name = some r) :
    ∃ parts, bodyOf? name sts = some parts ∧ g.IsRoot r ∧
      List.Forall₂ (fun v p => (Statement.callee p).RendersAt g v) (g.members r) parts := by
  rw [findDefinition?_eq] at hr
  cases hbody : bodyOf? name sts with
  | none =>
    have hnot := not_definesName h hsize (bodyOf?_eq_none hbody)
    rw [List.findIdx?_eq_none_iff.mpr hnot] at hr
    simp at hr
  | some parts =>
    obtain ⟨pre, d, post, rfl, hname, hpre, rfl⟩ := bodyOf?_eq_some hbody
    obtain ⟨g₀, g₁, h₀, h₁, h⟩ := build_split h
    obtain rfl := define_apply h₁
    have hext := build_extends h hsize
    have hext₀ := (d.extends_addTo g₀).trans hext
    have hle := Nat.le_trans hext₀.size_le hsize
    have hg₀ := build_wired h₀ hle
    have hfilled := build_members hg₀ h hsize fun s hs =>
      hqubits s (List.mem_append_right _ (List.mem_cons_of_mem _ hs))
    have hroot : g.IsRoot g₀.size := hext.isRoot ⟨_, _, _, _, Head.node_root⟩
    have hidx : g.vertices.findIdx? (definesName name) = some g₀.size := by
      obtain ⟨ns, hns⟩ := hext.nodes
      have hvertices : g.vertices = g₀.vertices ++
          (.define d.name d.params d.qubits d.clbits :: ns.map (·.vertex)) := by
        simp [Graph.vertices, hns, Head.addTo]
      have hnone : g₀.vertices.findIdx? (definesName name) = none :=
        List.findIdx?_eq_none_iff.mpr (not_definesName h₀ hle hpre)
      rw [hvertices, List.findIdx?_append, hnone, List.findIdx?_cons]
      simp [definesName, hname, Graph.vertices, Graph.size]
    obtain rfl : g₀.size = r := Option.some.inj (hidx.symm.trans hr)
    exact ⟨_, rfl, hroot, hfilled.members⟩

/-! ### Registers -/

lemma build_registers {sts : List Statement} {g : Graph}
    (h : sts.foldlM Statement.apply .empty = .ok g) (hsize : g.size ≤ 4294967296) {v : Nat}
    {r : Register} (hv : g.vertex? v = some (.register r)) :
    r ∈ sts.filterMap Statement.register? := by
  refine build_induct (P := fun sts g => ∀ v, g.vertex? v = some (.register r) →
    r ∈ sts.filterMap Statement.register?) (by simp [vertex?, Graph.empty]) ?_ h hsize v hv
  clear hv
  intro sts st g g' _ hsize hst ih v hv
  rw [List.filterMap_append, List.mem_append]
  rcases Nat.lt_or_ge v g.size with hlt | hge
  · rw [(apply_extends hsize hst).vertex?_eq hlt] at hv
    exact Or.inl (ih v hv)
  · rcases apply_vertex hsize hst hge hv with
      ⟨s, rfl, ⟨-, he⟩ | he⟩ | ⟨d, rfl, he⟩ | ⟨x, o, -, -, ho⟩
    · obtain rfl := Vertex.register.inj he
      exact Or.inr (by simp [Statement.register?])
    · exact absurd he.symm (Vertex.init_ne_register _ _)
    · simp at he
    · simp [Vertex.operation?] at ho

/-- Different register vertices of one kind have no bit in common. -/
lemma build_apart {sts : List Statement} {g : Graph}
    (h : sts.foldlM Statement.apply .empty = .ok g) (hsize : g.size ≤ 4294967296)
    (hregs : RegistersApart sts) {v w : Nat} {r s : Register} (hvw : v < w)
    (hv : g.vertex? v = some (.register r)) (hw : g.vertex? w = some (.register s))
    (hkind : r.kind = s.kind) {b : Nat} (hr : r.declares b) : ¬ s.declares b := by
  have hapart := hregs.apart
  clear hregs
  revert hapart
  refine build_induct (P := fun sts g => ∀ v w, v < w → g.vertex? v = some (.register r) →
    g.vertex? w = some (.register s) → (sts.filterMap Statement.register?).Pairwise (fun r s =>
      r.kind = s.kind → ∀ b, r.declares b → ¬ s.declares b) → ¬ s.declares b)
    (by simp [vertex?, Graph.empty]) ?_ h hsize v w hvw hv hw
  clear hvw hv hw
  intro sts st g g' hbuild hsize hst ih v w hvw hv hw hapart
  have hext := apply_extends hsize hst
  rw [List.filterMap_append, List.pairwise_append] at hapart
  rcases Nat.lt_or_ge w g.size with hlt | hge
  · rw [hext.vertex?_eq hlt] at hw
    rw [hext.vertex?_eq (Nat.lt_trans hvw hlt)] at hv
    exact ih v w hvw hv hw hapart.1
  · rcases apply_vertex hsize hst hge hw with
      ⟨s', rfl, ⟨rfl, he⟩ | he⟩ | ⟨d, rfl, he⟩ | ⟨x, o, -, -, ho⟩
    · obtain rfl := Vertex.register.inj he
      rw [hext.vertex?_eq hvw] at hv
      have hmem := build_registers hbuild (Nat.le_trans hext.size_le hsize) hv
      exact hapart.2.2 r hmem s (by simp [Statement.register?]) hkind b hr
    · exact absurd he.symm (Vertex.init_ne_register _ _)
    · simp at he
    · simp [Vertex.operation?] at ho

/-! ### Operands -/

/-- Without a loop at it, a vertex uses no qubit twice. -/
theorem build_qubits_nodup {sts : List Statement} {g : Graph}
    (h : sts.foldlM Statement.apply .empty = .ok g) (hsize : g.size ≤ 4294967296)
    (hloop : g.Loopless) (v : Nat) : (g.bitsInto v .qubit).Nodup := by
  revert hloop
  refine build_induct (P := fun _ g => g.Loopless → (g.bitsInto v .qubit).Nodup)
    (fun _ => by simp [bitsInto, Graph.empty]) ?_ h hsize
  intro sts st g g' hbuild hsize hst ih hloop
  have hext := apply_extends hsize hst
  have hg := build_wired hbuild (Nat.le_trans hext.size_le hsize)
  rcases Nat.lt_or_ge v g.size with hlt | hge
  · rw [hext.bitsInto_eq hlt]
    exact ih fun e he => hloop e (hext.mem_edges he)
  · -- only the edges of a site bring bits
    have hempty : (∀ e ∈ g'.edges, e.target = v → e.bit = none) → (g'.bitsInto v .qubit).Nodup := by
      intro hnone
      have hnil : g'.bitsInto v .qubit = [] := by
        refine List.eq_nil_iff_forall_not_mem.mpr fun b hb => ?_
        obtain ⟨e, he, ht, hbit⟩ := mem_bitsInto.mp hb
        simp [hnone e he ht] at hbit
      simp [hnil]
    rcases apply_cases hsize hst with ⟨r, rfl, rfl⟩ | ⟨d, rfl, rfl⟩ | ⟨x, hx, hknown, rfl⟩
    · refine hempty fun e he ht => ?_
      rcases Register.mem_edges he with hold | ⟨i, -, rfl⟩
      · have := hg.target e hold
        omega
      · rfl
    · refine hempty fun e he ht => ?_
      have := hg.target e he
      omega
    · by_cases hv : v = g.size
      · subst hv
        rw [(Site.renders hg hknown).qubits]
        have hleaves : ((x.links (x.root g)).map (·.1)).Nodup := by
          refine nodup_of_wires (v := g.size) hknown fun e he hself => ?_
          have hmem : e ∈ (x.addTo g).edges :=
            Site.mem_edges.mpr (Or.inr (List.mem_append_left _ he))
          exact hloop e hmem (hself.trans (target_wires he).symm)
        have hsub : (x.qubits.map fun q => (⟨x.scope, .qubit, q⟩ : Leaf)).Sublist
            ((x.links (x.root g)).map (·.1)) := by
          simp only [Site.links, Site.operands, List.map_append, List.map_map, List.append_assoc]
          exact List.sublist_append_left _ _
        exact (hleaves.sublist hsub).of_map _
      · refine hempty fun e he ht => ?_
        rcases Site.mem_edges.mp he with hold | hnew
        · have := hg.target e hold
          omega
        · exact absurd (ht.symm.trans (Site.target_edges hnew)) hv

end Document

/-- Every gate and call has its qubits brought in by edges, none of them twice. -/
structure Graph.Supplied (g : Graph) : Prop where
  bits : ∀ {v vertex o}, g.vertex? v = some vertex → vertex.operation? = some o →
    g.bitsInto v .qubit = o.qubits
  nodup : ∀ {v vertex o}, g.vertex? v = some vertex → vertex.operation? = some o →
    o.qubits.Nodup

namespace Document

/-- A new gate or call is the site of the statement. -/
lemma apply_operation {g g' : Graph} {st : Statement} (hsize : g'.size ≤ 4294967296)
    (hst : st.apply g = .ok g') {v : Nat} (hge : g.size ≤ v) {vertex : Vertex} {o : Operation}
    (hv : g'.vertex? v = some vertex) (ho : vertex.operation? = some o) :
    ∃ x, st.site? = some x ∧ (∀ b ∈ x.links (x.root g), g.knows b.1) ∧ g' = x.addTo g ∧
      v = g.size ∧ vertex = x.vertex := by
  rcases apply_vertex hsize hst hge hv with
    ⟨r, rfl, ⟨-, rfl⟩ | rfl⟩ | ⟨d, rfl, rfl⟩ | ⟨x, -, hx, rfl, -⟩
  · simp [Vertex.operation?] at ho
  · cases hk : r.kind <;> simp [hk, Vertex.init, Vertex.operation?] at ho
  · simp [Vertex.operation?] at ho
  · rcases apply_cases hsize hst with ⟨r, rfl, -⟩ | ⟨d, rfl, -⟩ | ⟨x', hx', hknown, rfl⟩
    · simp [Statement.site?] at hx
    · simp [Statement.site?] at hx
    · obtain rfl := Option.some.inj (hx.symm.trans hx')
      obtain ⟨node, hnode, -⟩ := Option.map_eq_some_iff.mp hv
      exact ⟨x, hx, hknown, rfl, Site.eq_size_of_le hge hnode, rfl⟩

/-- **The qubits of a gate or call are those that edges bring in.** -/
theorem build_supplied {sts : List Statement} {g : Graph}
    (h : sts.foldlM Statement.apply .empty = .ok g) (hsize : g.size ≤ 4294967296)
    (hloop : g.Loopless) : g.Supplied := by
  have hbits : ∀ v vertex o, g.vertex? v = some vertex → vertex.operation? = some o →
      g.bitsInto v .qubit = o.qubits := by
    refine build_induct (P := fun _ g => ∀ v vertex o, g.vertex? v = some vertex →
      vertex.operation? = some o → g.bitsInto v .qubit = o.qubits)
      (by simp [vertex?, Graph.empty]) ?_ h hsize
    intro sts st g g' hbuild hsize hst ih v vertex o hv ho
    have hext := apply_extends hsize hst
    have hg := build_wired hbuild (Nat.le_trans hext.size_le hsize)
    rcases Nat.lt_or_ge v g.size with hlt | hge
    · rw [hext.vertex?_eq hlt] at hv
      rw [hext.bitsInto_eq hlt]
      exact ih v vertex o hv ho
    · obtain ⟨x, hx, hknown, rfl, rfl, rfl⟩ := apply_operation hsize hst hge hv ho
      obtain ⟨o', ho', hqubits⟩ := site?_operation hx
      obtain rfl : o = o' := Option.some.inj (ho.symm.trans ho')
      rw [(Site.renders hg hknown).qubits, hqubits]
  refine ⟨fun {v vertex o} hv ho => hbits v vertex o hv ho, fun {v vertex o} hv ho => ?_⟩
  rw [← hbits v vertex o hv ho]
  exact build_qubits_nodup h hsize hloop v

/-! ### The statement behind a vertex -/

/-- How many vertices a statement adds. -/
def Statement.width : Statement → Nat
  | .register r => r.count + 1
  | _ => 1

/-- The statement that each vertex comes from. -/
def makers (sts : List Statement) : List Statement :=
  sts.flatMap fun st => List.replicate st.width st

/-- What a statement can put on a vertex. -/
def Statement.Makes (st : Statement) (vertex : Vertex) : Prop :=
  (∃ r, st = .register r ∧ (vertex = .register r ∨ vertex = .init r.kind)) ∨
    (∃ d, st = .define d ∧ vertex = .define d.name d.params d.qubits d.clbits) ∨
      ∃ x, st.site? = some x ∧ vertex = x.vertex

@[simp] lemma makers_snoc (sts : List Statement) (st : Statement) :
    makers (sts ++ [st]) = makers sts ++ List.replicate st.width st := by
  simp [makers]

lemma getElem?_makers_snoc {sts : List Statement} {st s : Statement} {v : Nat} :
    (makers (sts ++ [st]))[v]? = some s ↔ (makers sts)[v]? = some s ∨
      (makers sts).length ≤ v ∧ v < (makers sts).length + st.width ∧ s = st := by
  rw [makers_snoc]
  rcases Nat.lt_or_ge v (makers sts).length with hv | hv
  · rw [List.getElem?_append_left hv]
    exact (or_iff_left fun h => by omega).symm
  · rw [List.getElem?_append_right hv, List.getElem?_eq_none hv, List.getElem?_replicate,
      Option.ite_none_right_eq_some, Nat.sub_lt_iff_lt_add' hv]
    simp [hv, eq_comm]

lemma makers_middle (pre post : List Statement) (st : Statement) :
    (makers (pre ++ st :: post))[(makers pre).length]? = some st := by
  have hwidth : 0 < st.width := by cases st <;> simp [Statement.width]
  have hsplit : makers (pre ++ st :: post) =
      makers pre ++ (List.replicate st.width st ++ makers post) := by
    simp [makers]
  rw [hsplit, List.getElem?_append_right (Nat.le_refl _), Nat.sub_self,
    List.getElem?_append_left (by simpa using hwidth), List.getElem?_replicate, if_pos hwidth]

lemma size_apply {g g' : Graph} {st : Statement} (hsize : g'.size ≤ 4294967296)
    (hst : st.apply g = .ok g') : g'.size = g.size + st.width := by
  rcases apply_cases hsize hst with ⟨r, rfl, rfl⟩ | ⟨d, rfl, rfl⟩ | ⟨x, hx, -, rfl⟩
  · rw [Register.size_addTo, Statement.width]
    omega
  · rw [Head.size_addTo]
    rfl
  · rw [Site.size_addTo]
    cases st with
    | register r => simp [Statement.site?] at hx
    | _ => rfl

/-- The vertices of a graph are those that its statements add. -/
lemma build_size {sts : List Statement} {g : Graph}
    (h : sts.foldlM Statement.apply .empty = .ok g) (hsize : g.size ≤ 4294967296) :
    (makers sts).length = g.size := by
  refine build_induct (P := fun sts g => (makers sts).length = g.size) rfl ?_ h hsize
  intro sts st g g' _ hsize hst ih
  rw [makers_snoc, List.length_append, List.length_replicate, ih, size_apply hsize hst]

/-- **Every vertex comes from a statement that can make it.** -/
theorem build_maker {sts : List Statement} {g : Graph}
    (h : sts.foldlM Statement.apply .empty = .ok g) (hsize : g.size ≤ 4294967296) {v : Nat}
    {vertex : Vertex} (hv : g.vertex? v = some vertex) :
    ∃ st, (makers sts)[v]? = some st ∧ st.Makes vertex := by
  refine build_induct (P := fun sts g => ∀ v vertex, g.vertex? v = some vertex →
    ∃ st, (makers sts)[v]? = some st ∧ st.Makes vertex) (by simp [vertex?, Graph.empty]) ?_ h hsize
    v vertex hv
  clear hv
  intro sts st g g' hbuild hsize hst ih v vertex hv
  have hext := apply_extends hsize hst
  have hlen := build_size hbuild (Nat.le_trans hext.size_le hsize)
  have hlt := lt_size_of_vertex hv
  rw [size_apply hsize hst] at hlt
  rcases Nat.lt_or_ge v g.size with hold | hge
  · rw [hext.vertex?_eq hold] at hv
    obtain ⟨s, hs, hmakes⟩ := ih v vertex hv
    exact ⟨s, getElem?_makers_snoc.mpr (Or.inl hs), hmakes⟩
  · refine ⟨st, getElem?_makers_snoc.mpr (Or.inr ⟨by omega, by omega, rfl⟩), ?_⟩
    rcases apply_vertex hsize hst hge hv with
      ⟨r, rfl, ⟨-, rfl⟩ | rfl⟩ | ⟨d, rfl, rfl⟩ | ⟨x, -, hx, rfl, -⟩
    · exact Or.inl ⟨r, rfl, Or.inl rfl⟩
    · exact Or.inl ⟨r, rfl, Or.inr rfl⟩
    · exact Or.inr (Or.inl ⟨d, rfl, rfl⟩)
    · exact Or.inr (Or.inr ⟨x, hx, rfl⟩)

/-- What a part of a definition is on its vertex. -/
lemma callee_site? {p : Part} {x : Site} (h : (Statement.callee p).site? = some x) :
    x.scope = .inner ∧ x.conbits = guardBits p.condition ∧
      ∃ o, o.name = p.name ∧ x.vertex = if p.caller then .caller o else .callee o := by
  obtain ⟨o, ho, rfl⟩ := Option.map_eq_some_iff.mp h
  simp only [Part.operation?, Option.bind_eq_bind, Option.bind_eq_some_iff, Option.pure_def,
    Option.some.injEq] at ho
  obtain ⟨params, -, cmp, -, rfl⟩ := ho
  exact ⟨rfl, rfl, _, rfl, rfl⟩

lemma callee_isCall {p : Part} {x : Site} (h : (Statement.callee p).site? = some x) :
    x.vertex.isCall := (site?_inner h (callee_site? h).1).1

lemma callee_apply {g g' : Graph} {p : Part} (hsize : g'.size ≤ 4294967296)
    (hst : (Statement.callee p).apply g = .ok g') :
    ∃ x, (Statement.callee p).site? = some x ∧ (∀ b ∈ x.links (x.root g), g.knows b.1) ∧
      g' = x.addTo g := by
  rcases apply_cases hsize hst with ⟨r, hr, -⟩ | ⟨d, hd, -⟩ | h
  · simp at hr
  · simp at hd
  · exact h

/-- A definition is open as soon as there has been one. -/
lemma build_current {sts : List Statement} {g : Graph}
    (h : sts.foldlM Statement.apply .empty = .ok g) (hsize : g.size ≤ 4294967296) :
    g.current.isSome = sts.any (·.isDefine) := by
  refine build_induct (P := fun sts g => g.current.isSome = sts.any (·.isDefine)) rfl ?_ h hsize
  intro sts st g g' _ hsize hst ih
  rw [List.any_append, ← ih]
  rcases apply_cases hsize hst with ⟨r, rfl, rfl⟩ | ⟨d, rfl, rfl⟩ | ⟨x, hx, -, rfl⟩
  · simp [Statement.isDefine, Register.addTo]
  · simp [Statement.isDefine, Head.addTo]
  · have hst : st.isDefine = false := by
      cases st with
      | define d => simp [Statement.site?] at hx
      | _ => rfl
    simp [hst, Site.addTo]

end Document
end QCircuit
