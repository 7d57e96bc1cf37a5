import QCircuit.Compile
import QCircuit.Proofs.Graph.Bodies

/-!
The parts of a graph that share no register.

The parts are disjoint and closed under edges and under the links from calls to the registers that
their bodies read. So what uses a bit lies in the part of the register of that bit, and the order
of the parts leaves the order of the users of a bit as it is.
-/

namespace QCircuit

/-! ### Lists that are cut into parts -/

section Ascending

variable {n : Nat} {parts : List (List Nat)} {P : Nat → Bool}

/-- When all positions of interest lie in one part, the parts have them in ascending order. -/
lemma filter_flatten (hasc : ∀ part ∈ parts, part.Pairwise (· < ·))
    (hrange : ∀ part ∈ parts, ∀ v ∈ part, v < n) (hapart : parts.Pairwise List.Disjoint)
    (hcover : ∀ v < n, P v → ∃ part ∈ parts, v ∈ part)
    (hsame : ∀ part ∈ parts, ∀ v ∈ part, ∀ w < n, P v → P w → w ∈ part) :
    parts.flatten.filter P = (List.range n).filter P := by
  by_cases hex : ∃ v < n, P v
  · obtain ⟨v, hv, hPv⟩ := hex
    obtain ⟨part, hpart, hvp⟩ := hcover v hv hPv
    have hwhole : part.filter P = (List.range n).filter P := by
      refine eq_of_ascending ((hasc part hpart).filter P) (List.pairwise_lt_range.filter P) ?_
      intro w
      simp only [List.mem_filter, List.mem_range]
      exact ⟨fun h => ⟨hrange part hpart w h.1, h.2⟩,
        fun h => ⟨hsame part hpart v hvp w h.1 hPv h.2, h.2⟩⟩
    obtain ⟨xs, ys, rfl⟩ := List.append_of_mem hpart
    -- the other parts have nothing of interest
    have hother : ∀ zs : List (List Nat), (∀ q ∈ zs, q ∈ xs ++ part :: ys ∧ part.Disjoint q) →
        zs.flatten.filter P = [] := by
      intro zs hzs
      refine List.filter_eq_nil_iff.mpr fun w hw hPw => ?_
      obtain ⟨q, hq, hwq⟩ := List.mem_flatten.mp hw
      obtain ⟨hqp, hdisj⟩ := hzs q hq
      exact hdisj (hsame part hpart v hvp w (hrange q hqp w hwq) hPv hPw) hwq
    rw [List.pairwise_append, List.pairwise_cons] at hapart
    obtain ⟨-, ⟨hys, -⟩, hxs⟩ := hapart
    rw [List.flatten_append, List.flatten_cons, List.filter_append, List.filter_append, hwhole,
      hother xs fun q hq => ⟨by simp [hq], fun v hv hvq => hxs q hq part (by simp) hvq hv⟩,
      hother ys fun q hq => ⟨by simp [hq], hys q hq⟩]
    simp
  · have hnone : ∀ v < n, P v = false := fun v hv => by
      simpa using fun hP => hex ⟨v, hv, hP⟩
    rw [List.filter_eq_nil_iff.mpr fun v hv => ?_, List.filter_eq_nil_iff.mpr fun v hv => ?_]
    · simp [hnone v (List.mem_range.mp hv)]
    · obtain ⟨part, hpart, hvp⟩ := List.mem_flatten.mp hv
      simp [hnone v (hrange part hpart v hvp)]

end Ascending

namespace Graph

/-- Disjoint closed lists of positions that hold all registers. -/
structure Components (g : Graph) (parts : List (List Nat)) : Prop where
  parted : Parted (g.joined g.bodyLinks) (List.range g.size) parts
  ascending : ∀ part ∈ parts, part.Pairwise (· < ·)
  register : ∀ v r, g.vertex? v = some (.register r) → ∃ part ∈ parts, v ∈ part

lemma mem_joined {g : Graph} {links : List (Nat × Nat)} {v w : Nat} :
    w ∈ g.joined links v ↔ g.Touches v w ∨ (v, w) ∈ links ∨ (w, v) ∈ links := by
  have hlinks : w ∈ links.filterMap (fun p =>
      if p.1 = v then some p.2 else if p.2 = v then some p.1 else none) ↔
      (v, w) ∈ links ∨ (w, v) ∈ links := by
    simp only [List.mem_filterMap, Prod.exists]
    constructor
    · rintro ⟨a, b, hmem, h⟩
      split at h
      · next ha =>
        obtain rfl := Option.some.inj h
        exact Or.inl (ha ▸ hmem)
      · split at h
        · next hb =>
          obtain rfl := Option.some.inj h
          exact Or.inr (hb ▸ hmem)
        · simp at h
    · rintro (hmem | hmem)
      · exact ⟨v, w, hmem, by simp⟩
      · exact ⟨w, v, hmem, by by_cases hwv : w = v <;> simp [hwv]⟩
  have htouches : w ∈ g.outgoing v ∨ w ∈ g.incoming v ↔ g.Touches v w := by
    rw [mem_outgoing, mem_incoming]
    unfold Touches
    constructor
    · rintro (⟨e, he, h⟩ | ⟨e, he, h⟩)
      · exact ⟨e, he, Or.inl h⟩
      · exact ⟨e, he, Or.inr h⟩
    · rintro ⟨e, he, h | h⟩
      · exact Or.inl ⟨e, he, h⟩
      · exact Or.inr ⟨e, he, h⟩
  rw [joined, List.mem_append, List.mem_append, htouches, ← hlinks]

lemma getElem?_vertices (g : Graph) (v : Nat) : g.vertices[v]? = g.vertex? v := by
  rw [vertices, List.getElem?_map, vertex?, Array.getElem?_toList]

lemma mem_callers {g : Graph} {v : Nat} {name : String} :
    (v, name) ∈ g.callers ↔ ∃ o, g.vertex? v = some (.caller o) ∧ o.name = name := by
  simp only [callers, List.mem_filterMap, Prod.exists, List.mem_zipIdx_iff_getElem?,
    getElem?_vertices]
  constructor
  · rintro ⟨vertex, i, hi, h⟩
    cases vertex <;> simp at h
    next o =>
      obtain ⟨rfl, rfl⟩ := h
      exact ⟨o, hi, rfl⟩
  · rintro ⟨o, hv, rfl⟩
    exact ⟨_, v, hv, rfl⟩

lemma mem_clbitRegisters {g : Graph} {v : Nat} {r : Register} :
    (v, r) ∈ g.clbitRegisters ↔ g.vertex? v = some (.register r) ∧ r.kind = .clbit := by
  simp only [clbitRegisters, List.mem_filterMap, Prod.exists, List.mem_zipIdx_iff_getElem?,
    getElem?_vertices]
  constructor
  · rintro ⟨vertex, i, hi, h⟩
    cases vertex <;> simp at h
    next r' =>
      obtain ⟨hkind, rfl, rfl⟩ := h
      exact ⟨hi, hkind⟩
  · rintro ⟨hv, hkind⟩
    exact ⟨_, v, hv, by simp [hkind]⟩

/-- A call is linked to the register that the search finds for a bit its body reads. -/
lemma mem_bodyLinks_iff_find? {g : Graph} {v reg : Nat} : (v, reg) ∈ g.bodyLinks ↔
    ∃ o bit r, g.vertex? v = some (.caller o) ∧ bit ∈ g.bodyConbits o.name ∧
      g.clbitRegisters.find? (fun p => p.2.declares bit) = some (reg, r) := by
  constructor
  · intro h
    unfold bodyLinks at h
    simp only at h
    split at h
    · simp at h
    · simp only [List.mem_flatMap, List.mem_filterMap, Option.map_eq_some_iff, Prod.exists,
        Prod.mk.injEq] at h
      obtain ⟨v', name, hcaller, bit, hbit, reg', r, hfind, rfl, rfl⟩ := h
      obtain ⟨o, ho, rfl⟩ := mem_callers.mp hcaller
      exact ⟨o, bit, r, ho, hbit, hfind⟩
  · rintro ⟨o, bit, r, hv, hbit, hfind⟩
    have hnonempty : g.clbitRegisters.isEmpty = false :=
      List.isEmpty_eq_false_iff.mpr (List.ne_nil_of_mem (List.mem_of_find?_eq_some hfind))
    unfold bodyLinks
    simp only [hnonempty, Bool.false_eq_true, if_false, List.mem_flatMap, List.mem_filterMap,
      Prod.exists]
    exact ⟨v, o.name, mem_callers.mpr ⟨o, hv, rfl⟩, bit, hbit, by rw [hfind]; rfl⟩

/-- A call is linked to a classical register that declares a bit its body reads. -/
lemma exists_bit_of_mem_bodyLinks {g : Graph} {v reg : Nat} (h : (v, reg) ∈ g.bodyLinks) :
    ∃ o bit r, g.vertex? v = some (.caller o) ∧ bit ∈ g.bodyConbits o.name ∧
      g.vertex? reg = some (.register r) ∧ r.kind = .clbit ∧ r.declares bit := by
  obtain ⟨o, bit, r, ho, hbit, hfind⟩ := mem_bodyLinks_iff_find?.mp h
  obtain ⟨hreg, hkind⟩ := mem_clbitRegisters.mp (List.mem_of_find?_eq_some hfind)
  exact ⟨o, bit, r, ho, hbit, hreg, hkind, by simpa using List.find?_some hfind⟩

lemma mem_bodyLinks {g : Graph} {v reg : Nat} (h : (v, reg) ∈ g.bodyLinks) :
    (∃ o, g.vertex? v = some (.caller o)) ∧ ∃ r, g.vertex? reg = some (.register r) := by
  obtain ⟨o, -, r, ho, -, hr, -, -⟩ := exists_bit_of_mem_bodyLinks h
  exact ⟨⟨o, ho⟩, r, hr⟩

lemma exists_find?_declares {g : Graph} {reg : Nat} {r : Register} {bit : Nat}
    (hreg : g.vertex? reg = some (.register r)) (hkind : r.kind = .clbit) (hr : r.declares bit) :
    ∃ reg' r', g.clbitRegisters.find? (fun p => p.2.declares bit) = some (reg', r') := by
  have hmem := mem_clbitRegisters.mpr ⟨hreg, hkind⟩
  obtain ⟨⟨reg', r'⟩, hfind⟩ : ∃ p, g.clbitRegisters.find? (fun p => p.2.declares bit) = some p :=
    Option.isSome_iff_exists.mp (List.find?_isSome.mpr ⟨_, hmem, hr⟩)
  exact ⟨reg', r', hfind⟩

/-- A call is linked to a register of each bit that its body reads, if there is one. -/
lemma exists_bodyLink {g : Graph} {v reg : Nat} {o : Operation} {r : Register} {bit : Nat}
    (hv : g.vertex? v = some (.caller o)) (hbit : bit ∈ g.bodyConbits o.name)
    (hreg : g.vertex? reg = some (.register r)) (hkind : r.kind = .clbit) (hr : r.declares bit) :
    ∃ reg' r', (v, reg') ∈ g.bodyLinks ∧ g.vertex? reg' = some (.register r') ∧
      r'.kind = .clbit ∧ r'.declares bit := by
  obtain ⟨reg', r', hfind⟩ := exists_find?_declares hreg hkind hr
  have hreg' := mem_clbitRegisters.mp (List.mem_of_find?_eq_some hfind)
  exact ⟨reg', r', mem_bodyLinks_iff_find?.mpr ⟨o, bit, r', hv, hbit, hfind⟩, hreg'.1, hreg'.2,
    by simpa using List.find?_some hfind⟩

lemma mem_registers_iff {g : Graph} {v : Nat} :
    v ∈ g.registers ↔ ∃ r, g.vertex? v = some (.register r) := by
  constructor
  · intro h
    obtain ⟨vertex, hv, hreg⟩ := Option.any_eq_true _ _ |>.mp (List.mem_filter.mp h).2
    cases vertex <;> simp [Vertex.isRegister] at hreg
    next r => exact ⟨r, hv⟩
  · rintro ⟨r, hr⟩
    exact List.mem_filter.mpr
      ⟨List.mem_range.mpr (lt_size_of_vertex hr), by simp [hr, Vertex.isRegister]⟩

/-! ### What bodies read -/

/-- What holds while condition bits are collected: each name that was opened has its body on the
agenda, or has its bits among those found and the names it calls opened or on the agenda. -/
structure Collecting (g : Graph) (unseen : List String) (agenda : List Lookup) (bits : List Nat) :
    Prop where
  nodup : unseen.Nodup
  opened : ∀ s ∈ g.definedNames, s ∉ unseen → ∀ v ∈ g.bodyOf s, .vertex v ∈ agenda ∨
    (∀ b ∈ g.bitsInto v .conbit, b ∈ bits) ∧
      ∀ s', .name s' ∈ g.opens v → .name s' ∈ agenda ∨ s' ∉ unseen

section Collecting

variable {g : Graph} {unseen : List String} {agenda : List Lookup} {bits : List Nat}

/-- Looking into a vertex. -/
lemma Collecting.look {v : Nat} (h : Collecting g unseen (.vertex v :: agenda) bits) :
    Collecting g unseen (g.opens v ++ agenda) (bits ++ g.bitsInto v .conbit) := by
  refine ⟨h.nodup, fun s hs hseen w hw => ?_⟩
  rcases h.opened s hs hseen w hw with hmem | ⟨hbits, hopens⟩
  · rcases List.mem_cons.mp hmem with heq | hmem
    · obtain rfl := Lookup.vertex.inj heq
      exact Or.inr ⟨fun b hb => List.mem_append_right _ hb,
        fun s' hs' => Or.inl (List.mem_append_left _ hs')⟩
    · exact Or.inl (List.mem_append_right _ hmem)
  · refine Or.inr ⟨fun b hb => List.mem_append_left _ (hbits b hb), fun s' hs' => ?_⟩
    refine (hopens s' hs').imp_left fun hmem => List.mem_append_right _ ?_
    simpa using hmem

/-- Opening a name for the first time. -/
lemma Collecting.enter {s : String} (h : Collecting g unseen (.name s :: agenda) bits) :
    Collecting g (unseen.erase s) ((g.bodyOf s).map .vertex ++ agenda) bits := by
  refine ⟨h.nodup.erase s, fun s' hs' hseen w hw => ?_⟩
  by_cases hss : s' = s
  · exact Or.inl (List.mem_append_left _ (List.mem_map_of_mem (hss ▸ hw)))
  · have hseen : s' ∉ unseen := fun hmem => hseen (h.nodup.mem_erase_iff.mpr ⟨hss, hmem⟩)
    rcases h.opened s' hs' hseen w hw with hmem | ⟨hbits, hopens⟩
    · exact Or.inl (List.mem_append_right _ (by simpa using hmem))
    · refine Or.inr ⟨hbits, fun t ht => ?_⟩
      rcases hopens t ht with hmem | hnot
      · rcases List.mem_cons.mp hmem with heq | hmem
        · exact Or.inr (Lookup.name.inj heq ▸ h.nodup.not_mem_erase)
        · exact Or.inl (List.mem_append_right _ hmem)
      · exact Or.inr fun hmem => hnot (List.mem_of_mem_erase hmem)

/-- A name that was opened before. -/
lemma Collecting.skip {s : String} (h : Collecting g unseen (.name s :: agenda) bits)
    (hs : s ∉ unseen) : Collecting g unseen agenda bits := by
  refine ⟨h.nodup, fun s' hs' hseen w hw => ?_⟩
  rcases h.opened s' hs' hseen w hw with hmem | ⟨hbits, hopens⟩
  · exact Or.inl (by simpa using hmem)
  · refine Or.inr ⟨hbits, fun t ht => ?_⟩
    rcases hopens t ht with hmem | hnot
    · rcases List.mem_cons.mp hmem with heq | hmem
      · exact Or.inr (Lookup.name.inj heq ▸ hs)
      · exact Or.inl hmem
    · exact Or.inr hnot

/-- **Collecting ends with a set of names that is closed under calls**, and finds all that their
bodies read. -/
theorem Collecting.closed (h : Collecting g unseen agenda bits) :
    ∃ rest : List String, (∀ s ∈ rest, s ∈ unseen ∧ .name s ∉ agenda) ∧
      Collecting g rest [] (g.collect unseen agenda bits) := by
  induction unseen, agenda, bits using collect.induct g with
  | case1 unseen bits =>
    rw [collect]
    exact ⟨unseen, by simp, h⟩
  | case2 unseen bits v agenda ih =>
    rw [collect]
    obtain ⟨rest, hrest, hc⟩ := ih h.look
    refine ⟨rest, fun s hs => ?_, hc⟩
    obtain ⟨hunseen, hname⟩ := hrest s hs
    exact ⟨hunseen, fun hmem => hname (List.mem_append_right _ (by simpa using hmem))⟩
  | case3 unseen bits s agenda hs _ ih =>
    rw [collect, dif_pos hs]
    obtain ⟨rest, hrest, hc⟩ := ih h.enter
    refine ⟨rest, fun s' hs' => ?_, hc⟩
    obtain ⟨hunseen, hname⟩ := hrest s' hs'
    refine ⟨List.mem_of_mem_erase hunseen, fun hmem => ?_⟩
    rcases List.mem_cons.mp hmem with heq | hmem
    · exact h.nodup.not_mem_erase (Lookup.name.inj heq ▸ hunseen)
    · exact hname (List.mem_append_right _ hmem)
  | case4 unseen bits s agenda hs ih =>
    rw [collect, dif_neg hs]
    obtain ⟨rest, hrest, hc⟩ := ih (h.skip hs)
    refine ⟨rest, fun s' hs' => ?_, hc⟩
    obtain ⟨hunseen, hname⟩ := hrest s' hs'
    refine ⟨hunseen, fun hmem => ?_⟩
    rcases List.mem_cons.mp hmem with heq | hmem
    · exact hs (Lookup.name.inj heq ▸ hunseen)
    · exact hname hmem

end Collecting

lemma eraseDups_nodup (names : List String) : names.eraseDups.Nodup := by
  induction hk : names.length using Nat.strongRecOn generalizing names with
  | ind k ih =>
    cases names with
    | nil => simp
    | cons s names =>
      rw [List.eraseDups_cons, List.nodup_cons]
      refine ⟨fun hmem => by simp at hmem, ih _ ?_ _ rfl⟩
      have := List.length_filter_le (fun b => !b == s) names
      simp only [List.length_cons] at hk
      omega

/-- What a name stands for is a definition of it. -/
lemma exists_define_of_findDefinition {g : Graph} {name : String} {r : Nat}
    (h : g.findDefinition? name = some r) :
    ∃ params qubits clbits, g.vertex? r = some (.define name params qubits clbits) := by
  obtain ⟨hlt, hP, -⟩ := List.findIdx?_eq_some_iff_getElem.mp h
  rw [← getElem?_vertices, List.getElem?_eq_getElem hlt]
  split at hP
  · next _ params qubits clbits hvertex =>
    rw [hvertex, of_decide_eq_true hP]
    exact ⟨params, qubits, clbits, rfl⟩
  · simp at hP

lemma mem_definedNames {g : Graph} {name : String} {r : Nat}
    (h : g.findDefinition? name = some r) : name ∈ g.definedNames := by
  obtain ⟨params, qubits, clbits, hvertex⟩ := exists_define_of_findDefinition h
  rw [← getElem?_vertices] at hvertex
  rw [definedNames, List.mem_eraseDups]
  exact List.mem_filterMap.mpr ⟨_, List.mem_of_getElem? hvertex, rfl⟩

lemma bodyOf_eq {g : Graph} {name : String} {root : Nat}
    (h : g.findDefinition? name = some root) : g.bodyOf name = g.bodyFrom root := by
  simp [bodyOf, h]

/-- **The names that a call opens are closed under calls, and all that their bodies read is
found.** -/
theorem bodyConbits_closed (g : Graph) (name : String) : ∃ opened : String → Prop, opened name ∧
    ∀ s, opened s → ∀ v ∈ g.bodyOf s, (∀ b ∈ g.bitsInto v .conbit, b ∈ g.bodyConbits name) ∧
      ∀ o, g.vertex? v = some (.caller o) → opened o.name := by
  have hstart : Collecting g g.definedNames [.name name] [] :=
    ⟨eraseDups_nodup _, fun s hs hseen => absurd hs hseen⟩
  obtain ⟨rest, hrest, hc⟩ := hstart.closed
  refine ⟨fun s => s ∉ rest, fun hmem => (hrest name hmem).2 (by simp), fun s hs v hv => ?_⟩
  have hdef : s ∈ g.definedNames := by
    unfold bodyOf at hv
    rcases hfind : g.findDefinition? s with _ | r
    · simp [hfind] at hv
    · exact mem_definedNames hfind
  rcases hc.opened s hdef hs v hv with hmem | ⟨hbits, hopens⟩
  · simp at hmem
  · refine ⟨hbits, fun o ho => ?_⟩
    have hname : Lookup.name o.name ∈ g.opens v := by simp [opens, ho]
    rcases hopens o.name hname with hmem | hnot
    · simp at hmem
    · exact hnot

/-! ### Parts of a built graph -/

lemma Touches.symm {g : Graph} {a b : Nat} (h : g.Touches a b) : g.Touches b a := by
  obtain ⟨e, he, hends⟩ := h
  exact ⟨e, he, hends.symm⟩

lemma Touches.lt_size {g : Graph} (hg : Wired g) {a b : Nat} (h : g.Touches a b) : b < g.size := by
  obtain ⟨e, he, hends⟩ := h
  have ht := hg.target e he
  have hs := hg.source e he
  rcases hends with ⟨-, rfl⟩ | ⟨rfl, -⟩
  · exact ht
  · omega

/-- **The parts that a built graph falls into.** -/
theorem decompose_components {g : Graph} (hg : Wired g) :
    Components g (g.decompose (List.range g.size)) := by
  have hsymm : ∀ v w, w ∈ g.joined g.bodyLinks v → v ∈ g.joined g.bodyLinks w := by
    intro v w h
    rw [mem_joined] at h ⊢
    exact h.imp Touches.symm Or.symm
  have hrange : ∀ v ∈ List.range g.size, ∀ w ∈ g.joined g.bodyLinks v, w ∈ List.range g.size := by
    intro v _ w hw
    rw [List.mem_range]
    rcases mem_joined.mp hw with ht | hl | hl
    · exact ht.lt_size hg
    · obtain ⟨-, r, hr⟩ := mem_bodyLinks hl
      exact lt_size_of_vertex hr
    · obtain ⟨⟨o, ho⟩, -⟩ := mem_bodyLinks hl
      exact lt_size_of_vertex ho
  have hparted : Parted (g.joined g.bodyLinks) (List.range g.size)
      (partitionFrom (g.joined g.bodyLinks) g.registers (List.range g.size)) :=
    partitionFrom_parted hsymm hrange
  have hmem : ∀ part ∈ partitionFrom (g.joined g.bodyLinks) g.registers (List.range g.size),
      ∀ v, v ∈ (List.range g.size).filter (· ∈ part) ↔ v ∈ part := by
    intro part hpart v
    simpa using fun hv => List.mem_range.mp (hparted.within part hpart v hv)
  unfold decompose
  refine ⟨⟨?_, ?_, ?_⟩, ?_, ?_⟩
  · simp only [List.mem_map, forall_exists_index, and_imp, forall_apply_eq_imp_iff₂]
    exact fun part _ v hv => List.mem_of_mem_filter hv
  · rw [List.pairwise_map]
    refine hparted.apart.imp_of_mem fun {p q} hp hq hdisj v hv hvq => ?_
    exact hdisj ((hmem p hp v).mp hv) ((hmem q hq v).mp hvq)
  · simp only [List.mem_map, forall_exists_index, and_imp, forall_apply_eq_imp_iff₂]
    intro part hpart v hv w hw
    rw [hmem part hpart] at hv ⊢
    exact hparted.closed part hpart v hv w hw
  · simp only [List.mem_map, forall_exists_index, and_imp, forall_apply_eq_imp_iff₂]
    exact fun part _ => List.pairwise_lt_range.filter _
  · intro v r hr
    have hv := List.mem_range.mpr (lt_size_of_vertex hr)
    obtain ⟨part, hpart, hvp⟩ : ∃ part ∈ partitionFrom (g.joined g.bodyLinks) g.registers
      (List.range g.size), v ∈ part := exists_part_of_seed (mem_registers_iff.mpr ⟨r, hr⟩) hv
    exact ⟨_, List.mem_map_of_mem hpart, (hmem part hpart v).mpr hvp⟩

lemma components_ok {g : Graph} (hg : Wired g) {parts : List (List Nat)} :
    g.components = .ok parts ↔ g.Loopless ∧ parts = g.decompose (List.range g.size) := by
  unfold components
  rw [bind_eq_ok]
  simp only [mapError_eq_ok, topologicalOrder_ok hg]
  constructor
  · rintro ⟨order, ⟨hloop, rfl⟩, h⟩
    exact ⟨hloop, (Except.ok.inj h).symm⟩
  · rintro ⟨hloop, rfl⟩
    exact ⟨_, ⟨hloop, rfl⟩, rfl⟩

/-- No vertex lies in two parts, whatever the graph. -/
lemma flatten_of_components {g : Graph} {parts : List (List Nat)} (h : g.components = .ok parts) :
    parts.flatten.Nodup ∧ ∀ v ∈ parts.flatten, v < g.size := by
  obtain ⟨order, horder, h⟩ := bind_eq_ok.mp h
  obtain rfl := Except.ok.inj h
  have hperm := topologicalOrder_perm (mapError_eq_ok.mp horder)
  have hnd : order.Nodup := hperm.nodup_iff.mpr List.nodup_range
  constructor
  · rw [List.nodup_flatten]
    refine ⟨?_, List.pairwise_map.mpr (partitionFrom_apart.imp ?_)⟩
    · intro part hpart
      obtain ⟨_, -, rfl⟩ := List.mem_map.mp hpart
      exact hnd.filter _
    · intro p q hpq v hv hvq
      have hvp : v ∈ p := by simpa using (List.mem_filter.mp hv).2
      exact hpq hvp (by simpa using (List.mem_filter.mp hvq).2)
  · intro v hv
    obtain ⟨part, hpart, hv⟩ := List.mem_flatten.mp hv
    obtain ⟨_, -, rfl⟩ := List.mem_map.mp hpart
    exact List.mem_range.mp (hperm.mem_iff.mp (List.mem_of_mem_filter hv))

namespace Components

variable {g : Graph} {parts : List (List Nat)} (h : Components g parts) {part : List Nat}
  (hpart : part ∈ parts)
include h

lemma lt_size {v : Nat} (hpart : part ∈ parts) (hv : v ∈ part) : v < g.size :=
  List.mem_range.mp (h.parted.within part hpart v hv)

include hpart

/-- A part is closed under edges. -/
lemma mem_of_touches {v w : Nat} (hv : v ∈ part) (ht : g.Touches v w) : w ∈ part :=
  h.parted.closed part hpart v hv w (mem_joined.mpr (Or.inl ht))

lemma mem_iff_of_path {v w : Nat} (hpath : Relation.ReflTransGen g.Touches v w) :
    v ∈ part ↔ w ∈ part := by
  induction hpath with
  | refl => rfl
  | tail _ ht ih =>
    rw [ih]
    exact ⟨fun hv => h.mem_of_touches hpart hv ht, fun hv => h.mem_of_touches hpart hv ht.symm⟩

end Components

end Graph
end QCircuit
