import QCircuit.Proofs.Graph.Loops

/-!
The edges of a graph and the dependencies of its document.

Outside of definitions every bit is handed from one user to the next. So the users of a bit form a
chain that ends in its last user, whatever stands between them, and an edge between two gates or
calls is a bit that both use. A definition takes no part in this: its slots are other leaves, and no
edge leads into it from outside.
-/

namespace QCircuit

open QCircuit.Graph

namespace Document

/-- The bits that a gate or a call outside of definitions uses, those of its condition included. -/
def Statement.bits (st : Statement) : List Leaf :=
  match st with
  | .op i | .caller i => i.qubits.map (⟨.global, .qubit, ·⟩) ++
      (i.clbits ++ guardBits i.condition).map (⟨.global, .clbit, ·⟩)
  | _ => []

/-- The later one of two statements uses a bit of the earlier one. -/
def Follows (sts : List Statement) (k l : Nat) : Prop :=
  k < l ∧ ∃ s ∈ sts[k]?, ∃ t ∈ sts[l]?, ∃ b ∈ s.bits, b ∈ t.bits

instance (sts : List Statement) (k l : Nat) : Decidable (Follows sts k l) :=
  inferInstanceAs (Decidable (_ ∧ _))

/-- The first vertex of a statement. -/
def vertexAt (sts : List Statement) (k : Nat) : Nat := (makers (sts.take k)).length

/-- Where the bits of a register start. -/
def leavesOf (r : Register) : List Leaf := (List.range r.count).map r.leaf

/-- No bit is declared by two registers. -/
def RegistersDisjoint (sts : List Statement) : Prop :=
  (sts.filterMap Statement.register?).Pairwise fun r s => ∀ l ∈ leavesOf r, l ∉ leavesOf s

instance (sts : List Statement) : Decidable (RegistersDisjoint sts) :=
  inferInstanceAs (Decidable (List.Pairwise _ _))

/-! ### Users of bits -/

/-- The vertex comes from a gate or a call that uses the bit. -/
def UsedAt (sts : List Statement) (v : Nat) (b : Leaf) : Prop :=
  ∃ st, (makers sts)[v]? = some st ∧ b ∈ st.bits

/-- The vertex comes from a gate or a call outside of definitions. -/
def TopAt (sts : List Statement) (v : Nat) : Prop :=
  ∃ st, (makers sts)[v]? = some st ∧ st.isTop

section Users

variable {sts : List Statement} {st : Statement} {v : Nat} {b : Leaf}

lemma usedAt_snoc : UsedAt (sts ++ [st]) v b ↔ UsedAt sts v b ∨
    (makers sts).length ≤ v ∧ v < (makers sts).length + st.width ∧ b ∈ st.bits := by
  simp only [UsedAt, getElem?_makers_snoc]
  grind

lemma topAt_snoc : TopAt (sts ++ [st]) v ↔ TopAt sts v ∨
    (makers sts).length ≤ v ∧ v < (makers sts).length + st.width ∧ st.isTop := by
  simp only [TopAt, getElem?_makers_snoc]
  grind

lemma isTop_of_mem_bits (hb : b ∈ st.bits) : st.isTop ∧ b.scope = .global := by
  cases st <;> simp only [Statement.bits, List.not_mem_nil, List.mem_append, List.mem_map] at hb
  all_goals rcases hb with ⟨q, -, rfl⟩ | ⟨c, -, rfl⟩ <;> exact ⟨rfl, rfl⟩

lemma UsedAt.lt_length (h : UsedAt sts v b) : v < (makers sts).length := by
  obtain ⟨st, hst, -⟩ := h
  exact (List.getElem?_eq_some_iff.mp hst).1

lemma TopAt.lt_length (h : TopAt sts v) : v < (makers sts).length := by
  obtain ⟨st, hst, -⟩ := h
  exact (List.getElem?_eq_some_iff.mp hst).1

lemma width_of_isTop (h : st.isTop) : st.width = 1 := by
  cases st <;> first | rfl | simp [Statement.isTop] at h

/-- The bits of a site outside of definitions are those that are linked to it. -/
lemma mem_bits_iff {x : Site} (hx : st.site? = some x) (htop : st.isTop) :
    b ∈ st.bits ↔ ∃ l ∈ x.links none, l.1 = b := by
  rw [← List.mem_map, Site.links, List.map_append, leaves_operands, (site?_isTop hx).mpr htop]
  cases st <;> simp only [Statement.site?, Option.map_eq_some_iff, reduceCtorEq] at hx
  · obtain ⟨o, -, rfl⟩ := hx
    simp [Statement.bits, Function.comp_def]
  · obtain ⟨o, -, rfl⟩ := hx
    simp [Statement.bits, Function.comp_def]
  · simp [Statement.isTop] at htop

end Users

/-- What holds of the users of a bit: an edge joins two of them only, they form a chain, and the chain
ends in the last user. -/
structure Chained (sts : List Statement) (g : Graph) : Prop where
  user : ∀ p ∈ g.frontier, TopAt sts p.2 → UsedAt sts p.2 p.1
  edge : ∀ e ∈ g.edges, TopAt sts e.source →
    ∃ b, UsedAt sts e.source b ∧ UsedAt sts e.target b
  thread : ∀ v b, UsedAt sts v b →
    ∃ u, g.frontier.lookup b = some u ∧ Relation.ReflTransGen g.Leads v u
  chain : ∀ u v b, u < v → UsedAt sts u b → UsedAt sts v b → Relation.TransGen g.Leads u v
  current : ∀ r, g.current = some r → ¬ TopAt sts r

section Step

variable {sts : List Statement} {st : Statement} {g : Graph} (h : Chained sts g)
  (hlen : (makers sts).length = g.size) (hg : Wired g)
include h hlen hg

omit hg in
/-- A statement that is no gate or call outside of definitions leaves the chains as they are. -/
lemma Chained.aside {g' : Graph} (hext : Extends g g') (htop : st.isTop = false)
    (huser : ∀ p ∈ g'.frontier, p ∈ g.frontier ∨ g.size ≤ p.2)
    (hedge : ∀ e ∈ g'.edges, g.size ≤ e.target → ¬ TopAt sts e.source)
    (hlookup : ∀ v b, UsedAt sts v b → g'.frontier.lookup b = g.frontier.lookup b)
    (hcurrent : ∀ r, g'.current = some r → g.current = some r ∨ g.size ≤ r) :
    Chained (sts ++ [st]) g' := by
  have hused : ∀ {v b}, UsedAt (sts ++ [st]) v b ↔ UsedAt sts v b := fun {v b} => by
    rw [usedAt_snoc, or_iff_left]
    rintro ⟨-, -, hb⟩
    simp [(isTop_of_mem_bits hb).1] at htop
  have htopAt : ∀ {v}, TopAt (sts ++ [st]) v ↔ TopAt sts v := by simp [topAt_snoc, htop]
  have hnew : ∀ {v}, g.size ≤ v → ¬ TopAt sts v := fun hv ht => by
    have := ht.lt_length
    omega
  refine ⟨fun p hp ht => ?_, fun e he ht => ?_, fun v b hb => ?_, fun u v b huv hu hv => ?_,
    fun r hr ht => ?_⟩
  · rw [htopAt] at ht
    rw [hused]
    rcases huser p hp with hold | hle
    · exact h.user p hold ht
    · exact absurd ht (hnew hle)
  · rw [htopAt] at ht
    simp only [hused]
    rcases hext.edge_cases he with hold | hle
    · exact h.edge e hold ht
    · exact absurd ht (hedge e he hle)
  · rw [hused] at hb
    obtain ⟨u, hu, hpath⟩ := h.thread v b hb
    exact ⟨u, by rw [hlookup v b hb, hu], hext.reflTransGen hpath⟩
  · rw [hused] at hu hv
    exact hext.transGen (h.chain u v b huv hu hv)
  · rw [htopAt] at ht
    rcases hcurrent r hr with hold | hle
    · exact h.current r hold ht
    · exact hnew hle ht

lemma Chained.register {r : Register}
    (hnew : ∀ v b, UsedAt sts v b → b ∉ leavesOf r) :
    Chained (sts ++ [.register r]) (r.addTo g) := by
  refine h.aside hlen (r.extends_addTo g) rfl (fun p hp => ?_) (fun e he hle => ?_)
    (fun v b hb => ?_) fun _ => Or.inl
  · rcases Register.mem_frontier hp with hold | ⟨i, -, rfl⟩
    · exact Or.inl hold
    · exact Or.inr (by simp only; omega)
  · rcases Register.mem_edges he with hold | ⟨i, -, rfl⟩
    · have := hg.target e hold
      omega
    · intro ht
      have := ht.lt_length
      simp only at this
      omega
  · refine Register.lookup_of_ne fun i hi heq => hnew v b hb ?_
    exact List.mem_map.mpr ⟨i, List.mem_range.mpr hi, heq.symm⟩

lemma Chained.define {d : Head} : Chained (sts ++ [.define d]) (d.addTo g) := by
  refine h.aside hlen (d.extends_addTo g) rfl (fun p hp => ?_) (fun e he hle => ?_)
    (fun v b hb => ?_) fun r hr => ?_
  · exact (Head.mem_frontier hp).imp_right fun hslot => Nat.le_of_eq hslot.2.symm
  · have := hg.target e he
    omega
  · obtain ⟨s, -, hbits⟩ := hb
    rw [Head.lookup_addTo, if_neg fun hslot => ?_]
    simpa [(isTop_of_mem_bits hbits).2] using Head.scope_slots hslot
  · exact Or.inr (Nat.le_of_eq (Option.some.inj hr))

/-- Bits inside of a definition are slots, which nothing outside uses. -/
lemma Chained.inner {x : Site} (hx : st.site? = some x) (hscope : x.scope = .inner) {r : Nat}
    (hroot : x.root g = some r) : Chained (sts ++ [st]) (x.addTo g) := by
  have htop : st.isTop = false := by
    rw [Bool.eq_false_iff, ne_eq, ← site?_isTop hx, hscope]
    simp
  have hlinks : x.links (x.root g) = x.operands := by simp [Site.links, hroot]
  have hinner : ∀ v b, UsedAt sts v b → ∀ l ∈ x.links (x.root g), l.1 ≠ b := by
    rintro v b ⟨s, -, hb⟩ l hl rfl
    have := Site.scope_operands (hlinks ▸ hl)
    rw [(isTop_of_mem_bits hb).2, hscope] at this
    simp at this
  refine h.aside hlen (x.extends_addTo g) htop (fun p hp => ?_) (fun e he hle ht => ?_)
    (fun v b hb => ?_) fun _ => Or.inl
  · exact (Site.mem_frontier hp).imp_right fun hnew => Nat.le_of_eq hnew.2.symm
  · rcases Site.mem_edges.mp he with hold | hnew
    · have := hg.target e hold
      omega
    · rcases Site.source_edges hnew with hself | hcur | ⟨l, hl, hu⟩
      · have := ht.lt_length
        omega
      · exact h.current _ (Site.root_eq_some_iff.mp hcur).2 ht
      · exact hinner _ _ (h.user _ (mem_of_lookup hu) ht) l hl rfl
  · rw [Site.lookup_addTo, if_neg]
    intro hmem
    obtain ⟨l, hl, heq⟩ := List.mem_map.mp hmem
    exact hinner v b hb l hl heq

/-- A gate or a call takes its bits over from their last users. -/
lemma Chained.top {x : Site} (hx : st.site? = some x) (htop : st.isTop) :
    Chained (sts ++ [st]) (x.addTo g) := by
  have hext := x.extends_addTo g
  have hroot : x.root g = none := by simp [Site.root, (site?_isTop hx).mpr htop]
  have hbits : ∀ {b}, b ∈ st.bits ↔ b ∈ (x.links (x.root g)).map (·.1) := by
    intro b
    rw [hroot, mem_bits_iff hx htop, List.mem_map]
  have hused : ∀ {v b}, UsedAt (sts ++ [st]) v b ↔ UsedAt sts v b ∨ v = g.size ∧ b ∈ st.bits := by
    intro v b
    rw [usedAt_snoc, width_of_isTop htop, hlen]
    grind
  have htopAt : ∀ {v}, v < g.size → TopAt (sts ++ [st]) v → TopAt sts v := by
    intro v hv ht
    rcases topAt_snoc.mp ht with hold | ⟨hle, -⟩
    · exact hold
    · omega
  have hlookup : ∀ b, (x.addTo g).frontier.lookup b =
      if b ∈ st.bits then some g.size else g.frontier.lookup b :=
    fun b => by simp only [Site.lookup_addTo, hbits]
  have hleads : ∀ {b u}, b ∈ st.bits → g.frontier.lookup b = some u →
      (x.addTo g).Leads u g.size := by
    intro b u hb hu
    obtain ⟨l, hl, rfl⟩ := List.mem_map.mp (hbits.mp hb)
    exact Site.leads hl hu
  refine ⟨fun p hp ht => ?_, fun e he ht => ?_, fun v b hb => ?_, fun u v b huv hu hv => ?_,
    fun r hr ht => ?_⟩
  · rw [hused]
    rcases Site.mem_frontier hp with hold | ⟨hl, hv⟩
    · exact Or.inl (h.user p hold (htopAt (hg.user p hold) ht))
    · exact Or.inr ⟨hv, hbits.mpr (List.mem_map.mpr hl)⟩
  · rcases Site.mem_edges.mp he with hold | hnew
    · have hlt := Nat.lt_of_le_of_lt (hg.source e hold) (hg.target e hold)
      obtain ⟨b, hs, ht⟩ := h.edge e hold (htopAt hlt ht)
      exact ⟨b, hused.mpr (Or.inl hs), hused.mpr (Or.inl ht)⟩
    · have hwire : e ∈ wires g.size g.frontier (x.links (x.root g)) := by
        rwa [Site.edges_of_root hroot] at hnew
      obtain ⟨l, hl, -, hsource⟩ := exists_bit_of_mem_wires hwire
      have hmem := hbits.mpr (List.mem_map_of_mem hl)
      refine ⟨l.1, hused.mpr ?_, hused.mpr (Or.inr ⟨target_wires hwire, hmem⟩)⟩
      rcases hsource with hself | hu
      · exact Or.inr ⟨hself, hmem⟩
      · have huser := mem_of_lookup hu
        exact Or.inl (h.user _ huser (htopAt (hg.user _ huser) ht))
  · rw [hlookup]
    rcases hused.mp hb with hold | ⟨rfl, hnew⟩
    · obtain ⟨u, hu, hpath⟩ := h.thread v b hold
      split
      · next hmem => exact ⟨g.size, rfl, (hext.reflTransGen hpath).tail (hleads hmem hu)⟩
      · exact ⟨u, hu, hext.reflTransGen hpath⟩
    · exact ⟨g.size, if_pos hnew, .refl⟩
  · have hu : UsedAt sts u b := (hused.mp hu).resolve_right fun hnew => by
      have := (hused.mp hv).imp_left UsedAt.lt_length
      omega
    rcases hused.mp hv with hold | ⟨rfl, hb⟩
    · exact hext.transGen (h.chain u v b huv hu hold)
    · obtain ⟨w, hw, hpath⟩ := h.thread u b hu
      exact .tail' (hext.reflTransGen hpath) (hleads hb hw)
  · exact h.current r hr (htopAt (hg.current r hr).lt_size ht)

end Step

lemma registersDisjoint_snoc {sts : List Statement} {st : Statement} :
    RegistersDisjoint (sts ++ [st]) ↔ RegistersDisjoint sts ∧
      ∀ r, .register r ∈ sts → ∀ s, st = .register s → ∀ l ∈ leavesOf r, l ∉ leavesOf s := by
  rw [RegistersDisjoint, List.filterMap_append, List.pairwise_append]
  simp only [← mem_registers, List.filterMap_cons, List.filterMap_nil]
  cases st <;> simp [RegistersDisjoint, Statement.register?]

/-- A user of a bit is joined to a register that declares it. -/
lemma mem_leavesOf_of_owned {sts : List Statement} {g : Graph}
    (h : sts.foldlM Statement.apply .empty = .ok g) (hsize : g.size ≤ 4294967296) {b : Leaf}
    {v : Nat} (hscope : b.scope = .global) (ho : g.Owned b v) :
    ∃ r, .register r ∈ sts ∧ b ∈ leavesOf r := by
  obtain ⟨reg, r, hreg, hkind, ⟨i, hi, hid⟩, -⟩ := ho
  refine ⟨r, mem_registers.mp (build_registers h hsize hreg), List.mem_map.mpr
    ⟨i, List.mem_range.mpr hi, ?_⟩⟩
  rw [Register.leaf, hkind, ← hid, ← hscope]

/-- **In every graph that is built the users of a bit are chained.** -/
theorem build_chained {sts : List Statement} {g : Graph}
    (h : sts.foldlM Statement.apply .empty = .ok g) (hsize : g.size ≤ 4294967296)
    (hregs : RegistersDisjoint sts) (hparts : PartsFollow sts) : Chained sts g := by
  revert hregs hparts
  refine build_induct (P := fun sts g => RegistersDisjoint sts → PartsFollow sts → Chained sts g)
    (fun _ _ => ⟨?_, ?_, ?_, ?_, ?_⟩) ?_ h hsize
  · simp [Graph.empty]
  · simp [Graph.empty]
  · simp [UsedAt, makers]
  · simp [UsedAt, makers]
  · simp [Graph.empty]
  intro sts st g g' hbuild hsize hst ih hregs hparts
  obtain ⟨hregs, hnew⟩ := registersDisjoint_snoc.mp hregs
  obtain ⟨hparts, hdef⟩ := partsFollow_snoc hparts
  have hle := Nat.le_trans (apply_extends hsize hst).size_le hsize
  have hg := build_wired hbuild hle
  have hlen := build_size hbuild hle
  have ih := ih hregs hparts
  rcases apply_cases hsize hst with ⟨r, rfl, rfl⟩ | ⟨d, rfl, rfl⟩ | ⟨x, hx, hknown, rfl⟩
  · refine ih.register hlen hg fun v b hb => ?_
    obtain ⟨u, hu, -⟩ := ih.thread v b hb
    obtain ⟨s, -, hbits⟩ := hb
    have hscope := (isTop_of_mem_bits hbits).2
    obtain ⟨r', hr', hb⟩ := mem_leavesOf_of_owned hbuild hle hscope
      (hg.outer _ (mem_of_lookup hu) hscope).2
    exact hnew r' hr' r rfl b hb
  · exact ih.define hlen hg
  · cases hscope : x.scope with
    | global => exact ih.top hlen hg hx ((site?_isTop hx).mp hscope)
    | inner =>
      obtain ⟨-, p, rfl, -, -⟩ := site?_inner hx hscope
      have hcur : g.current.isSome := by rw [build_current hbuild hle, hdef p rfl]
      obtain ⟨r, hr⟩ := Option.isSome_iff_exists.mp hcur
      exact ih.inner hlen hg hx hscope (r := r) (by simp [Site.root, hscope, hr])

/-! ### Paths and chains of statements -/

section Paths

variable {sts : List Statement} {i j k l : Nat} {s t : Statement}

lemma makers_vertexAt (hk : sts[k]? = some s) : (makers sts)[vertexAt sts k]? = some s := by
  obtain ⟨hlt, rfl⟩ := List.getElem?_eq_some_iff.mp hk
  have hmiddle := makers_middle (sts.take k) (sts.drop (k + 1)) sts[k]
  rwa [← List.drop_eq_getElem_cons hlt, List.take_append_drop] at hmiddle

lemma vertexAt_lt (hk : sts[k]? = some s) (hkl : k < l) : vertexAt sts k < vertexAt sts l := by
  have htake : (sts.take l)[k]? = some s := by rw [List.getElem?_take_of_lt hkl, hk]
  have hlt := (List.getElem?_eq_some_iff.mp (makers_vertexAt htake)).1
  rwa [vertexAt, List.take_take, Nat.min_eq_left hkl.le] at hlt

/-- Only gates and calls use bits, and each is a single vertex. -/
lemma exists_vertexAt {v : Nat} {b : Leaf} (h : UsedAt sts v b) :
    ∃ k s, sts[k]? = some s ∧ b ∈ s.bits ∧ v = vertexAt sts k := by
  induction sts using List.reverseRecOn with
  | nil => simp [UsedAt, makers] at h
  | append_singleton sts st ih =>
    rcases usedAt_snoc.mp h with hold | ⟨hle, hlt, hb⟩
    · obtain ⟨k, s, hk, hb, rfl⟩ := ih hold
      have hlt := (List.getElem?_eq_some_iff.mp hk).1
      refine ⟨k, s, by rw [List.getElem?_append_left hlt, hk], hb, ?_⟩
      rw [vertexAt, vertexAt, List.take_append_of_le_length hlt.le]
    · rw [width_of_isTop (isTop_of_mem_bits hb).1] at hlt
      refine ⟨sts.length, st, by simp, hb, ?_⟩
      rw [vertexAt, List.take_left]
      omega

lemma vertexAt_eq {i j : Nat} {s t : Statement} (hi : sts[i]? = some s) (hj : sts[j]? = some t)
    (h : vertexAt sts i = vertexAt sts j) : i = j := by
  by_contra hne
  rcases Nat.lt_or_gt_of_ne hne with hlt | hlt
  · exact (vertexAt_lt hi hlt).ne h
  · exact (vertexAt_lt hj hlt).ne' h

variable {g : Graph} (h : Chained sts g)
include h

lemma Chained.transGen_leads (hij : Relation.TransGen (Follows sts) i j) :
    Relation.TransGen g.Leads (vertexAt sts i) (vertexAt sts j) := by
  have hstep : ∀ k l, Follows sts k l →
      Relation.TransGen g.Leads (vertexAt sts k) (vertexAt sts l) := by
    rintro k l ⟨hkl, s, hs, t, ht, b, hbs, hbt⟩
    exact h.chain _ _ b (vertexAt_lt hs hkl) ⟨s, makers_vertexAt hs, hbs⟩
      ⟨t, makers_vertexAt ht, hbt⟩
  exact Relation.TransGen.lift' (vertexAt sts) hstep _ _ hij

/-- A path from a gate or a call goes along those that depend on it. -/
lemma Chained.exists_follows (hg : Wired g) (hi : sts[i]? = some s) (hs : s.isTop) {v : Nat}
    (hpath : Relation.ReflTransGen g.Leads (vertexAt sts i) v) :
    ∃ k t, sts[k]? = some t ∧ t.isTop ∧ v = vertexAt sts k ∧
      Relation.ReflTransGen (Follows sts) i k := by
  induction hpath with
  | refl => exact ⟨i, s, hi, hs, rfl, .refl⟩
  | tail _ hlead ih =>
    obtain ⟨k, t, hk, ht, rfl, hik⟩ := ih
    obtain ⟨e, he, hsource, rfl⟩ := hlead
    obtain ⟨b, hbs, hbt⟩ := h.edge e he (hsource ▸ ⟨t, makers_vertexAt hk, ht⟩)
    obtain ⟨l, u, hl, hbu, htarget⟩ := exists_vertexAt hbt
    refine ⟨l, u, hl, (isTop_of_mem_bits hbu).1, htarget, ?_⟩
    have hkl : k ≤ l := by
      by_contra hlt
      have := vertexAt_lt hl (Nat.lt_of_not_le hlt)
      have := hg.source e he
      omega
    rcases hkl.eq_or_lt with rfl | hkl
    · exact hik
    · obtain ⟨t', ht', hbt'⟩ := hbs
      rw [hsource, makers_vertexAt hk] at ht'
      obtain rfl := Option.some.inj ht'
      exact hik.tail ⟨hkl, t, hk, u, hl, b, hbt', hbu⟩

/-- Paths between gates and calls are chains of statements that share bits. -/
lemma Chained.transGen_iff (hg : Wired g) (hi : sts[i]? = some s) (hs : s.isTop)
    (hj : sts[j]? = some t) (hij : i < j) :
    Relation.TransGen g.Leads (vertexAt sts i) (vertexAt sts j) ↔
      Relation.TransGen (Follows sts) i j := by
  refine ⟨fun hpath => ?_, h.transGen_leads⟩
  obtain ⟨k, u, hk, -, hjk, hchain⟩ := h.exists_follows hg hi hs hpath.to_reflTransGen
  obtain rfl := vertexAt_eq hj hk hjk
  exact (Relation.reflTransGen_iff_eq_or_transGen.mp hchain).resolve_left hij.ne'

end Paths

/-- The vertex of a gate or a call is where the statements before it end. -/
lemma build_rendersAt {sts : List Statement} {g : Graph}
    (h : sts.foldlM Statement.apply .empty = .ok g) (hsize : g.size ≤ 4294967296) {k : Nat}
    {st : Statement} (hk : sts[k]? = some st) (htop : st.isTop) :
    st.RendersAt g (vertexAt sts k) := by
  obtain ⟨hlt, rfl⟩ := List.getElem?_eq_some_iff.mp hk
  rw [← List.take_append_drop k sts, List.drop_eq_getElem_cons hlt] at h
  obtain ⟨g₁, g₂, hpre, hst, hpost⟩ := build_split h
  have hext := build_extends hpost hsize
  have hsize₂ := Nat.le_trans hext.size_le hsize
  have hsize₁ := Nat.le_trans (apply_extends hsize₂ hst).size_le hsize₂
  rw [vertexAt, build_size hpre hsize₁]
  rcases apply_cases hsize₂ hst with ⟨r, hr, -⟩ | ⟨d, hd, -⟩ | ⟨x, hx, hknown, rfl⟩
  · simp [hr, Statement.isTop] at htop
  · simp [hd, Statement.isTop] at htop
  · exact ⟨x, hx, (Site.renders (build_wired hpre hsize₁) hknown).extends hext⟩

/-- **The order of the graph is that of the dependencies.** If registers are disjoint and every part
follows a definition, a path leads from one gate or call to a later one exactly when a chain of gates
and calls, each sharing a bit with the next one, does. -/
theorem build_dependencies {d : Document} {g : Graph} (hbuild : d.build = .ok g)
    (hsize : g.size ≤ 4294967296) (hregs : RegistersDisjoint d.statements)
    (hparts : PartsFollow d.statements) {i j : Nat} {s t : Statement}
    (hi : d.statements[i]? = some s) (hs : s.isTop) (hj : d.statements[j]? = some t) (ht : t.isTop)
    (hij : i < j) :
    s.RendersAt g (vertexAt d.statements i) ∧ t.RendersAt g (vertexAt d.statements j) ∧
      (Relation.TransGen g.Leads (vertexAt d.statements i) (vertexAt d.statements j) ↔
        Relation.TransGen (Follows d.statements) i j) :=
  ⟨build_rendersAt hbuild hsize hi hs, build_rendersAt hbuild hsize hj ht,
    (build_chained hbuild hsize hregs hparts).transGen_iff (build_wired hbuild hsize) hi hs hj hij⟩

/-- A gate, a measurement of its qubit and a gate that is guarded by the outcome, with a definition, a
register and a call of the definition on another qubit in between. -/
def measuredGuard : Document where
  statements := [.register ⟨.qubit, 0, 2⟩, .op ⟨"X", [], [0], [], none⟩, .define ⟨"flip", 0, 1, 0⟩,
    .callee ⟨"X", [], [0], [], [], false, none⟩, .register ⟨.clbit, 0, 1⟩,
    .op ⟨"measure", [], [0], [0], none⟩, .caller ⟨"flip", [], [1], [], none⟩,
    .op ⟨"X", [], [1], [], some ⟨[0], "==", 1⟩⟩]

/-- The guarded gate depends on the first one, through the measurement; the call does not. -/
theorem measuredGuard_dependencies : ∃ g, measuredGuard.build = .ok g ∧
    Relation.TransGen g.Leads 3 10 ∧ ¬ Relation.TransGen g.Leads 3 9 := by
  obtain ⟨g, hbuild⟩ : ∃ g, measuredGuard.build = .ok g := ⟨_, rfl⟩
  have hsize : g.size ≤ 4294967296 := by
    obtain rfl := Except.ok.inj hbuild
    decide
  have hregs : RegistersDisjoint measuredGuard.statements := by decide
  have hparts : PartsFollow measuredGuard.statements := by decide
  obtain ⟨-, -, hguard⟩ := build_dependencies hbuild hsize hregs hparts (i := 1) (j := 7)
    rfl rfl rfl rfl (by decide)
  obtain ⟨-, -, hcall⟩ := build_dependencies hbuild hsize hregs hparts (i := 1) (j := 6)
    rfl rfl rfl rfl (by decide)
  refine ⟨g, hbuild, hguard.mpr ?_, fun hpath => ?_⟩
  · exact .tail (.single (by decide : Follows _ 1 5)) (by decide : Follows _ 5 7)
  · -- nothing before the call uses its qubit
    have hlast : ∀ k, ¬ Follows measuredGuard.statements k 6 := fun k hk => by
      have hnone : ∀ k < 6, ¬ Follows measuredGuard.statements k 6 := by decide
      exact hnone k hk.1 hk
    cases hcall.mp hpath with
    | single h => exact hlast _ h
    | tail _ h => exact hlast _ h

end Document
end QCircuit
