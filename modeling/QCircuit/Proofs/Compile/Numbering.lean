import Mathlib.Data.List.Nodup
import QCircuit.Compile.Numbering
import QCircuit.Proofs.Graph.Origins

/-!
Dense indices.

The dense index of a bit is its position among the declared bits, in the order in which the
registers are met. A part of the graph has as many live bits as its registers declare.
-/

namespace QCircuit

namespace Register

lemma mem_bits {r : Register} {b : Nat} : b ∈ r.bits ↔ r.declares b := by
  simp only [bits, declares, List.mem_range'_1, Bool.and_eq_true, decide_eq_true_eq]
  omega

lemma bits_nodup (r : Register) : r.bits.Nodup := List.nodup_range'

lemma bits_eq {r : Register} (h : r.start + r.count < 4294967296) :
    r.bits = List.range' r.start r.count := by
  rw [bits]
  congr 1
  omega

end Register

namespace DenseMap

/-- The map that numbers bits in their order. -/
def ofList (bits : List Nat) : DenseMap := bits.foldl push {}

lemma ofList_snoc (bits : List Nat) (b : Nat) : ofList (bits ++ [b]) = (ofList bits).push b := by
  simp [ofList]

lemma size_ofList (bits : List Nat) : (ofList bits).size = bits.length := by
  induction bits using List.reverseRecOn with
  | nil => rfl
  | append_singleton bits b ih =>
    rw [ofList_snoc, push, ih, List.length_append, List.length_singleton]

/-- A bit gets the next index, in place of one that it has. -/
lemma get?_push (m : DenseMap) (x b : Nat) :
    (m.push x).get? b = if b = x then some m.size else m.get? b := by
  rw [get?, push, List.lookup_cons]
  by_cases hb : b = x
  · rw [if_pos hb, beq_iff_eq.mpr hb]
  · rw [if_neg hb, beq_eq_false_iff_ne.mpr hb, get?]

/-- **The index of a bit is its last position.** -/
theorem get?_ofList_last {bits : List Nat} {b d : Nat} :
    (ofList bits).get? b = some d ↔ bits[d]? = some b ∧ ∀ k, d < k → bits[k]? ≠ some b := by
  induction bits using List.reverseRecOn with
  | nil => simp [ofList, get?]
  | append_singleton bits x ih =>
    have hlen : (bits ++ [x]).length = bits.length + 1 := by simp
    rw [ofList_snoc, get?_push, size_ofList]
    split
    · next hb =>
      subst hb
      rw [Option.some.injEq]
      constructor
      · rintro rfl
        refine ⟨by simp, fun k hk => ?_⟩
        rw [List.getElem?_eq_none (by omega)]
        simp
      · rintro ⟨hd, hlast⟩
        have hlt := (List.getElem?_eq_some_iff.mp hd).1
        by_contra hne
        exact hlast bits.length (by omega) (by simp)
    · next hb =>
      -- the new bit is another one
      have hat : ∀ k : Nat, (bits ++ [x])[k]? = some b ↔ bits[k]? = some b := by
        intro k
        rcases Nat.lt_trichotomy k bits.length with hk | rfl | hk
        · rw [List.getElem?_append_left hk]
        · simpa using Ne.symm hb
        · rw [List.getElem?_eq_none (by omega), List.getElem?_eq_none (by omega)]
      simp only [ne_eq, hat]
      exact ih

lemma exists_get?_ofList {bits : List Nat} {b : Nat} (hb : b ∈ bits) :
    ∃ d, (ofList bits).get? b = some d := by
  induction bits using List.reverseRecOn with
  | nil => simp at hb
  | append_singleton bits x ih =>
    rw [ofList_snoc, get?_push]
    split
    · exact ⟨_, rfl⟩
    · next hx => exact ih (by simpa [hx] using hb)

/-- Without repetitions it is the only one. -/
lemma get?_ofList {bits : List Nat} (hnd : bits.Nodup) {b d : Nat} :
    (ofList bits).get? b = some d ↔ bits[d]? = some b := by
  rw [get?_ofList_last, and_iff_left_iff_imp]
  intro hd k hk hkb
  obtain ⟨hd', hd⟩ := List.getElem?_eq_some_iff.mp hd
  obtain ⟨hk', hkb⟩ := List.getElem?_eq_some_iff.mp hkb
  have := (List.Nodup.getElem_inj_iff hnd).mp (hd.trans hkb.symm)
  omega

end DenseMap

/-- Whether a vertex is an initial bit of a kind. -/
def Vertex.isInit : BitKind → Vertex → Bool
  | .qubit, .initQubit => true
  | .clbit, .initClbit => true
  | _, _ => false

/-- The bits of a kind that a vertex declares. -/
def Vertex.declared (kind : BitKind) : Vertex → List Nat
  | .register r => if r.kind = kind then r.bits else []
  | _ => []

namespace Graph

/-- The bits of a kind that the registers of a list declare, in order. -/
def declared (g : Graph) (vs : List Nat) (kind : BitKind) : List Nat :=
  vs.flatMap fun v => ((g.vertex? v).map (Vertex.declared kind)).getD []

/-- How many initial bits of a kind a list has. -/
def live (g : Graph) (vs : List Nat) (kind : BitKind) : Nat :=
  vs.countP fun v => (g.vertex? v).any (Vertex.isInit kind)

end Graph

namespace Numbering

lemma map_add (n : Numbering) (vertex : Vertex) (kind : BitKind) :
    (n.add vertex).map kind = (vertex.declared kind).foldl DenseMap.push (n.map kind) := by
  cases vertex with
  | register r => cases hk : r.kind <;> cases kind <;> simp [add, hk, map, Vertex.declared,
      DenseMap.declare]
  | _ => cases kind <;> rfl

lemma live_add (n : Numbering) (vertex : Vertex) (kind : BitKind) :
    (n.add vertex).live kind = n.live kind + if vertex.isInit kind then 1 else 0 := by
  cases vertex with
  | register r => cases hk : r.kind <;> cases kind <;> simp [add, hk, live, Vertex.isInit]
  | _ => cases kind <;> rfl

/-- **What a list of vertices numbers**: the bits its registers declare, in order. -/
theorem ofVertices_ok {g : Graph} (hsize : g.size ≤ 4294967296) {vs : List Nat}
    (hvs : ∀ v ∈ vs, v < g.size) :
    ∃ n, ofVertices g vs = .ok n ∧ ∀ kind, n.map kind = .ofList (g.declared vs kind) ∧
      n.live kind = g.live vs kind := by
  have hrun : ∀ n₀ : Numbering, ∃ n, vs.foldlM (fun (n : Numbering) v => do
      return n.add (← (g.vertex v).mapError CompileError.graph)) n₀ = .ok n ∧ ∀ kind,
        n.map kind = (g.declared vs kind).foldl DenseMap.push (n₀.map kind) ∧
          n.live kind = n₀.live kind + g.live vs kind := by
    induction vs with
    | nil => exact fun n₀ => ⟨n₀, rfl, fun _ => ⟨rfl, rfl⟩⟩
    | cons v vs ih =>
      intro n₀
      have hv := hvs v List.mem_cons_self
      obtain ⟨node, hnode⟩ := Graph.exists_node hv
      have hvertex : g.vertex? v = some node.vertex := by simp [Graph.vertex?, hnode]
      obtain ⟨n, hn, hkind⟩ :=
        ih (fun w hw => hvs w (List.mem_cons_of_mem _ hw)) (n₀.add node.vertex)
      refine ⟨n, ?_, fun kind => ?_⟩
      · rw [List.foldlM_cons, bind_eq_ok]
        refine ⟨n₀.add node.vertex, ?_, hn⟩
        rw [(Graph.vertex_ok hsize hv).mpr hvertex]
        rfl
      · obtain ⟨hmap, hlive⟩ := hkind kind
        constructor
        · rw [hmap, map_add]
          simp [Graph.declared, hvertex, List.foldl_append]
        · rw [hlive, live_add]
          simp only [Graph.live, List.countP_cons, hvertex, Option.any_some]
          omega
  obtain ⟨n, hn, hkind⟩ := hrun {}
  refine ⟨n, hn, fun kind => ?_⟩
  obtain ⟨hmap, hlive⟩ := hkind kind
  cases kind <;> exact ⟨hmap, by rw [hlive]; exact Nat.zero_add _⟩

/-- A numbering always numbers some bits in their order. -/
lemma exists_map_eq {g : Graph} {vs : List Nat} {n : Numbering} (h : ofVertices g vs = .ok n)
    (kind : BitKind) : ∃ bits, n.map kind = .ofList bits := by
  have hrun : ∀ {vs : List Nat} {n₀ n : Numbering}, vs.foldlM (fun (n : Numbering) v => do
      return n.add (← (g.vertex v).mapError CompileError.graph)) n₀ = .ok n →
        (∃ bits, n₀.map kind = .ofList bits) → ∃ bits, n.map kind = .ofList bits := by
    intro vs
    induction vs with
    | nil =>
      intro n₀ n h hbits
      obtain rfl := Except.ok.inj h
      exact hbits
    | cons v vs ih =>
      rintro n₀ n h ⟨bits, hbits⟩
      rw [List.foldlM_cons, bind_eq_ok] at h
      obtain ⟨n₁, hn₁, h⟩ := h
      obtain ⟨vertex, -, hn₁⟩ := bind_eq_ok.mp hn₁
      obtain rfl := Except.ok.inj hn₁
      refine ih h ⟨bits ++ vertex.declared kind, ?_⟩
      rw [map_add, hbits, DenseMap.ofList, DenseMap.ofList, List.foldl_append]
  exact hrun h ⟨[], by cases kind <;> rfl⟩

lemma dense_ok {n : Numbering} {kind : BitKind} {v b d : Nat} :
    n.dense kind v b = .ok d ↔ (n.map kind).get? b = some d ∧ d < n.live kind := by
  unfold dense
  split
  · next h => simp [h]
  · next d' h =>
    rw [h]
    split
    · next hlt =>
      simp only [Except.ok.injEq, Option.some.injEq]
      exact ⟨fun he => ⟨he, he ▸ hlt⟩, fun he => he.1⟩
    · next hge =>
      simp only [reduceCtorEq, Option.some.injEq, false_iff, not_and]
      exact fun he => he ▸ hge

end Numbering

namespace Graph

/-- The place of a bit among the declared ones. -/
def index (g : Graph) (vs : List Nat) (kind : BitKind) (b : Nat) : Option Nat :=
  (g.declared vs kind).idxOf? b

lemma idxOf?_eq_some_of_nodup {bits : List Nat} (hnd : bits.Nodup) {b d : Nat} :
    bits.idxOf? b = some d ↔ bits[d]? = some b := by
  rw [List.idxOf?_eq_some_iff, List.getElem?_eq_some_iff]
  constructor
  · rintro ⟨hd, hb, -⟩
    exact ⟨hd, hb⟩
  · rintro ⟨hd, hb⟩
    refine ⟨hd, hb, fun j hj hjb => ?_⟩
    have := (List.Nodup.getElem_inj_iff hnd).mp (hjb.trans hb.symm)
    omega

lemma mem_declaredAt {g : Graph} {kind : BitKind} {v b : Nat} :
    b ∈ ((g.vertex? v).map (Vertex.declared kind)).getD [] ↔
      ∃ r, g.vertex? v = some (.register r) ∧ r.kind = kind ∧ r.declares b := by
  rcases hv : g.vertex? v with _ | vertex
  · simp
  · cases vertex <;> simp [Vertex.declared, Register.mem_bits]

lemma mem_declared {g : Graph} {vs : List Nat} {kind : BitKind} {b : Nat} :
    b ∈ g.declared vs kind ↔
      ∃ v ∈ vs, ∃ r, g.vertex? v = some (.register r) ∧ r.kind = kind ∧ r.declares b := by
  simp only [declared, List.mem_flatMap, mem_declaredAt]

/-- Registers apart declare no bit twice. -/
lemma declared_nodup {sts : List Document.Statement} {g : Graph}
    (h : sts.foldlM Document.Statement.apply .empty = .ok g) (hsize : g.size ≤ 4294967296)
    (hregs : Document.RegistersApart sts) {vs : List Nat} (hnd : vs.Nodup) (kind : BitKind) :
    (g.declared vs kind).Nodup := by
  refine List.nodup_flatMap.mpr ⟨fun v _ => ?_, hnd.imp fun {v w} hne b hbv hbw => ?_⟩
  · rcases hv : g.vertex? v with _ | vertex
    · simp
    · cases vertex <;> simp [Vertex.declared]
      split
      · exact Register.bits_nodup _
      · simp
  · obtain ⟨r, hr, hrk, hrb⟩ := mem_declaredAt.mp hbv
    obtain ⟨s, hs, hsk, hsb⟩ := mem_declaredAt.mp hbw
    rcases Nat.lt_or_gt_of_ne hne with hlt | hlt
    · exact Document.build_apart h hsize hregs hlt hr hs (hrk.trans hsk.symm) hrb hsb
    · exact Document.build_apart h hsize hregs hlt hs hr (hsk.trans hrk.symm) hsb hrb

end Graph

/-! ### Live bits -/

namespace Graph

lemma declared_append (g : Graph) (xs ys : List Nat) (kind : BitKind) :
    g.declared (xs ++ ys) kind = g.declared xs kind ++ g.declared ys kind := List.flatMap_append

lemma live_append (g : Graph) (xs ys : List Nat) (kind : BitKind) :
    g.live (xs ++ ys) kind = g.live xs kind + g.live ys kind := List.countP_append

/-- The initial vertices of a kind in a list. -/
def inits (g : Graph) (vs : List Nat) (kind : BitKind) : List Nat :=
  vs.filter fun v => (g.vertex? v).any (Vertex.isInit kind)

lemma length_inits (g : Graph) (vs : List Nat) (kind : BitKind) :
    (g.inits vs kind).length = g.live vs kind := (List.countP_eq_length_filter ..).symm

/-- The initial vertices of a list are those of the declared bits, in order. -/
def Aligned (g : Graph) (vs : List Nat) : Prop :=
  ∀ kind, List.Forall₂ (g.IsInitOf kind) (g.inits vs kind) (g.declared vs kind)

/-- The live bits of a list are the declared ones. -/
def Balanced (g : Graph) (vs : List Nat) : Prop :=
  ∀ kind, g.live vs kind = (g.declared vs kind).length

lemma Aligned.balanced {g : Graph} {vs : List Nat} (h : g.Aligned vs) : g.Balanced vs := by
  intro kind
  rw [← length_inits, (h kind).length_eq]

lemma aligned_nil (g : Graph) : g.Aligned [] := fun _ => .nil

lemma Aligned.append {g : Graph} {xs ys : List Nat} (hx : g.Aligned xs) (hy : g.Aligned ys) :
    g.Aligned (xs ++ ys) := by
  intro kind
  rw [inits, List.filter_append, declared_append]
  exact List.rel_append (hx kind) (hy kind)

lemma Aligned.flatten {g : Graph} {parts : List (List Nat)} (h : ∀ part ∈ parts, g.Aligned part) :
    g.Aligned parts.flatten := by
  induction parts with
  | nil => exact g.aligned_nil
  | cons part parts ih =>
    rw [List.flatten_cons]
    exact (h part List.mem_cons_self).append (ih fun p hp => h p (List.mem_cons_of_mem _ hp))

lemma Aligned.extends {g g' : Graph} {vs : List Nat} (h : g.Aligned vs) (hext : Extends g g')
    (hvs : ∀ v ∈ vs, v < g.size) : g'.Aligned vs := by
  intro kind
  have hinits : g'.inits vs kind = g.inits vs kind :=
    List.filter_congr fun v hv => by rw [hext.vertex?_eq (hvs v hv)]
  have hdecl : g'.declared vs kind = g.declared vs kind :=
    List.flatMap_congr fun v hv => by rw [hext.vertex?_eq (hvs v hv)]
  rw [hinits, hdecl]
  exact (h kind).imp fun _ _ => hext.isInitOf

/-- A vertex that is no register and no initial bit. -/
lemma aligned_singleton {g : Graph} {v : Nat} {vertex : Vertex} (hv : g.vertex? v = some vertex)
    (hinit : ∀ kind, vertex.isInit kind = false) (hdecl : ∀ kind, vertex.declared kind = []) :
    g.Aligned [v] := by
  intro kind
  simp [inits, declared, hv, hinit kind, hdecl kind]

/-! A register is followed by its initial vertices. -/

/-- The positions that a register takes. -/
def positions (g : Graph) (r : Register) : List Nat :=
  g.size :: (List.range r.count).map (g.size + 1 + ·)

section Register

variable (g : Graph) (r : Register)

lemma range_addTo : List.range (r.addTo g).size = List.range g.size ++ g.positions r := by
  rw [Register.size_addTo, List.range_add, List.range_succ, List.append_assoc,
    List.singleton_append, positions]

lemma declared_positions (kind : BitKind) :
    (r.addTo g).declared (g.positions r) kind = if r.kind = kind then r.bits else [] := by
  have hnone : ((List.range r.count).map (g.size + 1 + ·)).flatMap (fun v =>
      (((r.addTo g).vertex? v).map (Vertex.declared kind)).getD []) = [] := by
    refine List.flatMap_eq_nil_iff.mpr fun v hv => ?_
    obtain ⟨i, hi, rfl⟩ := List.mem_map.mp hv
    rw [r.vertex_init g (List.mem_range.mp hi)]
    cases r.kind <;> rfl
  rw [declared, positions, List.flatMap_cons, hnone, r.vertex_register g, List.append_nil]
  rfl

lemma inits_positions (kind : BitKind) : (r.addTo g).inits (g.positions r) kind =
    if r.kind = kind then (List.range r.count).map (g.size + 1 + ·) else [] := by
  have hself : ((r.addTo g).vertex? g.size).any (Vertex.isInit kind) = false := by
    rw [r.vertex_register g]
    cases kind <;> rfl
  have hrest : ∀ v ∈ (List.range r.count).map (g.size + 1 + ·),
      ((r.addTo g).vertex? v).any (Vertex.isInit kind) = decide (r.kind = kind) := by
    intro v hv
    obtain ⟨i, hi, rfl⟩ := List.mem_map.mp hv
    rw [r.vertex_init g (List.mem_range.mp hi)]
    cases r.kind <;> cases kind <;> rfl
  rw [inits, positions, List.filter_cons_of_neg (by simp [hself]), List.filter_congr hrest]
  by_cases hk : r.kind = kind <;> simp [hk]

variable {r} (hr : r.start + r.count < 4294967296)
include hr

/-- A register brings an initial vertex for each bit that it declares. -/
lemma aligned_positions : (r.addTo g).Aligned (g.positions r) := by
  intro kind
  rw [declared_positions, inits_positions, Register.bits_eq hr]
  split
  · next hk =>
    rw [List.range'_eq_map_range, List.forall₂_map_left_iff, List.forall₂_map_right_iff]
    refine List.forall₂_same.mpr fun i hi => ?_
    have hi := List.mem_range.mp hi
    exact ⟨g.size, r, r.vertex_register g, hk, i, hi, rfl, (Register.bit_eq (by omega)).symm⟩
  · exact .nil

/-- The edges from a register keep its initial vertices together with it. -/
lemma aligned_filter_positions {P : Nat → Bool}
    (hP : ∀ e ∈ (r.addTo g).edges, P e.source = P e.target) :
    (r.addTo g).Aligned ((g.positions r).filter P) := by
  have hsame : ∀ v ∈ g.positions r, P v = P g.size := by
    intro v hv
    rcases List.mem_cons.mp hv with rfl | hv
    · rfl
    · obtain ⟨i, hi, rfl⟩ := List.mem_map.mp hv
      have hedge : (⟨g.size, g.size + 1 + i, none⟩ : Edge) ∈ (r.addTo g).edges := by
        simpa [Register.addTo] using Or.inr (List.mem_range.mp hi)
      exact (hP _ hedge).symm
  cases hPr : P g.size with
  | true =>
    rw [List.filter_eq_self.mpr fun v hv => (hsame v hv).trans hPr]
    exact g.aligned_positions hr
  | false =>
    rw [List.filter_eq_nil_iff.mpr fun v hv => by simp [hsame v hv, hPr]]
    exact aligned_nil _

end Register

end Graph

/-- **Positions that edges do not leave have the initial vertices of the bits they declare.** -/
theorem Document.build_aligned {sts : List Document.Statement} {g : Graph}
    (h : sts.foldlM Document.Statement.apply .empty = .ok g) (hsize : g.size ≤ 4294967296)
    (hbounded : ∀ r ∈ sts.filterMap Document.Statement.register?, r.start + r.count < 4294967296)
    {P : Nat → Bool} (hP : ∀ e ∈ g.edges, P e.source = P e.target) :
    g.Aligned ((List.range g.size).filter P) := by
  revert hbounded hP
  refine Document.build_induct (P := fun sts g =>
    (∀ r ∈ sts.filterMap Document.Statement.register?, r.start + r.count < 4294967296) →
      (∀ e ∈ g.edges, P e.source = P e.target) → g.Aligned ((List.range g.size).filter P))
    (fun _ _ => Graph.aligned_nil _) ?_ h hsize
  intro sts st g g' hbuild hsize hst ih hbounded hP
  have hext := Document.apply_extends hsize hst
  have hold : g'.Aligned ((List.range g.size).filter P) := by
    refine (ih (fun r hr => hbounded r ?_) fun e he => hP e (hext.mem_edges he)).extends hext ?_
    · rw [List.filterMap_append]
      exact List.mem_append_left _ hr
    · exact fun v hv => List.mem_range.mp (List.mem_of_mem_filter hv)
  -- one new vertex that is no register
  have hsingle : g'.size = g.size + 1 → ∀ vertex, g'.vertex? g.size = some vertex →
      (∀ kind, vertex.isInit kind = false) → (∀ kind, vertex.declared kind = []) →
      g'.Aligned ((List.range g'.size).filter P) := by
    intro hsz vertex hv hinit hdecl
    rw [hsz, List.range_succ, List.filter_append, List.filter_singleton]
    refine hold.append ?_
    cases P g.size with
    | true => exact Graph.aligned_singleton hv hinit hdecl
    | false => exact Graph.aligned_nil _
  rcases Document.apply_cases hsize hst with ⟨r, rfl, rfl⟩ | ⟨d, rfl, rfl⟩ | ⟨x, hx, -, rfl⟩
  · have hr : r.start + r.count < 4294967296 :=
      hbounded r (by simp [Document.Statement.register?])
    rw [Graph.range_addTo, List.filter_append]
    exact hold.append (g.aligned_filter_positions hr hP)
  · have hv : (d.addTo g).vertex? g.size = some (.define d.name d.params d.qubits d.clbits) := by
      simp [Graph.vertex?, Document.Head.node_root]
    exact hsingle (by simp) _ hv (fun kind => by cases kind <;> rfl) fun kind => rfl
  · obtain ⟨o, ho, -⟩ := Document.site?_operation hx
    refine hsingle (by simp) x.vertex (by simp [Graph.vertex?, Site.node_addTo]) ?_ ?_
    · intro kind
      cases hv : x.vertex <;> cases kind <;> first | rfl | simp [hv, Vertex.operation?] at ho
    · intro kind
      cases hv : x.vertex <;> first | rfl | simp [hv, Vertex.operation?] at ho

end QCircuit
