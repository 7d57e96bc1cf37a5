import Mathlib
import QCircuit.Proofs.Graph.Parts
import QCircuit.Proofs.Graph.Statements

/-!
Bodies and the parts of a graph.

Parts grow from registers. No edge leads from outside of the definitions into one, as long as every
condition inside follows a definition; but a call inside a body is linked, like any other call, to
the classical registers that the called body reads. So bodies stay out of all parts exactly when no
call inside one reads a declared bit and no condition precedes all definitions.
-/

namespace QCircuit

open QCircuit.Graph

namespace Document

/-! ### What definitions are made of -/

/-- Whether the statement belongs to a definition. -/
def Statement.isInner : Statement → Bool
  | .define _ | .callee _ => true
  | _ => false

/-- The position comes from a definition or a part of one. -/
def Inner (sts : List Statement) (v : Nat) : Prop :=
  ∃ st, (makers sts)[v]? = some st ∧ st.isInner

/-- No position in a part comes from a definition. -/
def Isolated (sts : List Statement) (parts : List (List Nat)) : Prop :=
  ∀ part ∈ parts, ∀ v ∈ part, ¬ Inner sts v

/-- A register gets hold of the part, which stands after `pre`: it calls a body that reads a declared
classical bit, or has a condition outside of all definitions. -/
def Part.Exposed (p : Part) (g : Graph) (sts pre : List Statement) : Prop :=
  (p.caller ∧ ∃ bit ∈ g.bodyConbits p.name, ∃ r, .register r ∈ sts ∧ r.kind = .clbit ∧
    r.declares bit) ∨
  (pre.any (·.isDefine) = false ∧ guardBits p.condition ≠ [])

section Inner

variable {sts : List Statement} {st : Statement} {v : Nat}

lemma inner_of_lt (hv : v < (makers sts).length) : Inner (sts ++ [st]) v ↔ Inner sts v := by
  simp only [Inner, getElem?_makers_snoc, Nat.not_le.mpr hv, false_and, or_false]

lemma inner_of_le (hle : (makers sts).length ≤ v) (hlt : v < (makers sts).length + st.width) :
    Inner (sts ++ [st]) v ↔ st.isInner := by
  simp [Inner, hle, hlt]

lemma mem_of_maker (h : (makers sts)[v]? = some st) : st ∈ sts := by
  obtain ⟨s, hs, hmem⟩ := List.mem_flatMap.mp (List.mem_of_getElem? h)
  rwa [List.eq_of_mem_replicate hmem]

end Inner

/-- A site of a definition stands inside. -/
lemma site?_scope {st : Statement} {x : Site} (h : st.site? = some x) :
    x.scope = .inner ↔ st.isInner := by
  cases st <;> simp only [Statement.site?, Option.map_eq_some_iff, reduceCtorEq] at h
  all_goals
    obtain ⟨o, -, rfl⟩ := h
    simp [Statement.isInner]

lemma Statement.Makes.register {st : Statement} {r : Register} (h : st.Makes (.register r)) :
    st = .register r := by
  rcases h with ⟨r', rfl, he | he⟩ | ⟨d, -, he⟩ | ⟨x, hx, he⟩
  · rw [Vertex.register.inj he]
  · exact absurd he.symm (Vertex.init_ne_register _ _)
  · simp at he
  · obtain ⟨o, ho, -⟩ := site?_operation hx
    rw [← he] at ho
    simp [Vertex.operation?] at ho

/-- A call is made by a call, or by a part that is one. -/
lemma Statement.Makes.caller {st : Statement} {o : Operation} (h : st.Makes (.caller o)) :
    (∃ i, st = .caller i) ∨ ∃ p, st = .callee p ∧ p.caller ∧ p.name = o.name := by
  rcases h with ⟨r, -, he | he⟩ | ⟨d, -, he⟩ | ⟨x, hx, he⟩
  · simp at he
  · cases hk : r.kind <;> simp [hk, Vertex.init] at he
  · simp at he
  · cases st with
    | register r => simp [Statement.site?] at hx
    | define d => simp [Statement.site?] at hx
    | op i =>
      obtain ⟨o', -, rfl⟩ := Option.map_eq_some_iff.mp hx
      simp at he
    | caller i => exact Or.inl ⟨i, rfl⟩
    | callee p =>
      obtain ⟨-, -, o', hname, hvertex⟩ := callee_site? hx
      rw [hvertex] at he
      cases hc : p.caller with
      | false => simp [hc] at he
      | true =>
        obtain rfl : o = o' := by simpa [hc] using he
        exact Or.inr ⟨p, rfl, hc, hname.symm⟩

/-! ### No edge leads into a definition -/

/-- Every condition inside follows a definition. -/
def GuardsFollow (sts : List Statement) : Prop :=
  ∀ pre p post, sts = pre ++ .callee p :: post → pre.any (·.isDefine) = false →
    guardBits p.condition = []

/-- Edges and last users keep to their side of the definitions. -/
structure Separated (sts : List Statement) (g : Graph) : Prop where
  edge : ∀ e ∈ g.edges, Inner sts e.source ↔ Inner sts e.target
  user : ∀ p ∈ g.frontier, Inner sts p.2 ↔ p.1.scope = .inner
  current : ∀ r, g.current = some r → Inner sts r

/-- The bits of a site are on its side. -/
lemma scope_of_mem_links {x : Site} {g : Graph}
    (hguard : x.scope = .inner → x.root g = none → x.conbits = []) {b : Leaf × Wire}
    (hb : b ∈ x.links (x.root g)) : b.1.scope = x.scope := by
  rcases List.mem_append.mp hb with hb | hb
  · exact Site.scope_operands hb
  · split at hb
    · next hroot =>
      obtain ⟨c, hc, rfl⟩ := List.mem_map.mp hb
      cases hscope : x.scope with
      | global => rfl
      | inner => simp [hguard hscope (by simpa using hroot)] at hc
    · simp at hb

section Step

variable {sts : List Statement} {st : Statement} {g : Graph} (h : Separated sts g)
  (hlen : (makers sts).length = g.size) (hg : Wired g)
include h hlen hg

/-- What is old stays on its side; the rest is to be shown of what is new. -/
lemma Separated.snoc {g' : Graph} (hsize : g'.size ≤ 4294967296) (hst : st.apply g = .ok g')
    (hedge : ∀ e ∈ g'.edges, g.size ≤ e.target → (Inner (sts ++ [st]) e.source ↔ st.isInner))
    (huser : ∀ p ∈ g'.frontier, p ∈ g.frontier ∨ g.size ≤ p.2 ∧ (p.1.scope = .inner ↔ st.isInner))
    (hcurrent : ∀ r, g'.current = some r → g.current = some r ∨ g.size ≤ r ∧ st.isInner) :
    Separated (sts ++ [st]) g' := by
  have hext := apply_extends hsize hst
  have hg' := apply_wired hg hsize hst
  have hwidth := size_apply hsize hst
  have hold : ∀ {v}, v < g.size → (Inner (sts ++ [st]) v ↔ Inner sts v) :=
    fun hv => inner_of_lt (by omega)
  have hnew : ∀ {v}, g.size ≤ v → v < g'.size → (Inner (sts ++ [st]) v ↔ st.isInner) :=
    fun hle hlt => inner_of_le (by omega) (by omega)
  refine ⟨fun e he => ?_, fun p hp => ?_, fun r hr => ?_⟩
  · rcases hext.edge_cases he with hmem | hle
    · have ht := hg.target e hmem
      have hs := hg.source e hmem
      rw [hold ht, hold (by omega)]
      exact h.edge e hmem
    · rw [hnew hle (hg'.target e he)]
      exact hedge e he hle
  · rcases huser p hp with hmem | ⟨hle, hscope⟩
    · rw [hold (hg.user p hmem)]
      exact h.user p hmem
    · rw [hnew hle (hg'.user p hp), hscope]
  · rcases hcurrent r hr with hmem | ⟨hle, hinner⟩
    · rw [hold (hg.current r hmem).lt_size]
      exact h.current r hmem
    · rwa [hnew hle (hg'.current r hr).lt_size]

lemma Separated.register {r : Register} (hsize : (r.addTo g).size ≤ 4294967296)
    (hst : (Statement.register r).apply g = .ok (r.addTo g)) :
    Separated (sts ++ [.register r]) (r.addTo g) := by
  refine h.snoc hlen hg hsize hst (fun e he hge => ?_) (fun p hp => ?_) fun _ => Or.inl
  · rcases Register.mem_edges he with hold | ⟨i, -, rfl⟩
    · have := hg.target e hold
      omega
    · exact inner_of_le (Nat.le_of_eq hlen) (by simp [hlen, Statement.width])
  · rcases Register.mem_frontier hp with hold | ⟨i, -, rfl⟩
    · exact Or.inl hold
    · refine Or.inr ⟨by simp only; omega, ?_⟩
      simp [Statement.isInner]

lemma Separated.define {d : Head} (hsize : (d.addTo g).size ≤ 4294967296)
    (hst : (Statement.define d).apply g = .ok (d.addTo g)) :
    Separated (sts ++ [.define d]) (d.addTo g) := by
  refine h.snoc hlen hg hsize hst (fun e he hge => ?_) (fun p hp => ?_) fun r hr => ?_
  · have := hg.target e he
    omega
  · rcases Head.mem_frontier hp with hold | ⟨hl, hv⟩
    · exact Or.inl hold
    · exact Or.inr ⟨Nat.le_of_eq hv.symm, iff_of_true (Head.scope_slots hl) rfl⟩
  · exact Or.inr ⟨Nat.le_of_eq (Option.some.inj hr), rfl⟩

lemma Separated.site {x : Site} (hsize : (x.addTo g).size ≤ 4294967296)
    (hst : st.apply g = .ok (x.addTo g)) (hx : st.site? = some x)
    (hguard : x.scope = .inner → x.root g = none → x.conbits = []) :
    Separated (sts ++ [st]) (x.addTo g) := by
  have hscope := site?_scope hx
  have hside : ∀ b ∈ x.links (x.root g), b.1.scope = .inner ↔ st.isInner := fun b hb => by
    rw [scope_of_mem_links hguard hb, hscope]
  refine h.snoc hlen hg hsize hst (fun e he hge => ?_) (fun p hp => ?_) fun _ => Or.inl
  · rcases Site.mem_edges.mp he with hold | hnew
    · have := hg.target e hold
      omega
    · rcases Site.source_edges hnew with hself | hroot | ⟨b, hb, hu⟩
      · rw [hself]
        refine inner_of_le (Nat.le_of_eq hlen) ?_
        rw [hlen, ← size_apply hsize hst, Site.size_addTo]
        omega
      · have hcur : x.scope = .inner ∧ g.current = some e.source := by
          simpa [Site.root] using hroot
        rw [inner_of_lt (by rw [hlen]; exact (hg.current _ hcur.2).lt_size)]
        exact iff_of_true (h.current _ hcur.2) (hscope.mp hcur.1)
      · have hmem := mem_of_lookup hu
        rw [inner_of_lt (by rw [hlen]; exact hg.user _ hmem), h.user _ hmem]
        exact hside b hb
  · rcases Site.mem_frontier hp with hold | ⟨⟨b, hb, hbp⟩, hv⟩
    · exact Or.inl hold
    · exact Or.inr ⟨Nat.le_of_eq hv.symm, hbp ▸ hside b hb⟩

end Step

/-- **Where conditions follow a definition, edges and last users keep to their side.** -/
theorem build_separated {sts : List Statement} {g : Graph}
    (h : sts.foldlM Statement.apply .empty = .ok g) (hsize : g.size ≤ 4294967296)
    (hguards : GuardsFollow sts) : Separated sts g := by
  revert hguards
  refine build_induct (P := fun sts g => GuardsFollow sts → Separated sts g)
    (fun _ => ⟨by simp [Graph.empty], by simp [Graph.empty], by simp [Graph.empty]⟩) ?_ h hsize
  intro sts st g g' hbuild hsize hst ih hguards
  have hle := Nat.le_trans (apply_extends hsize hst).size_le hsize
  have hg := build_wired hbuild hle
  have hlen := build_size hbuild hle
  have ih : Separated sts g := ih fun pre p post hsts =>
    hguards pre p (post ++ [st]) (by simp [hsts])
  rcases apply_cases hsize hst with ⟨r, rfl, rfl⟩ | ⟨d, rfl, rfl⟩ | ⟨x, hx, -, rfl⟩
  · exact ih.register hlen hg hsize hst
  · exact ih.define hlen hg hsize hst
  · refine ih.site hlen hg hsize hst hx fun hinner hroot => ?_
    obtain ⟨-, p, rfl, -, -⟩ := site?_inner hx hinner
    obtain ⟨-, hconbits, -⟩ := callee_site? hx
    rw [hconbits]
    refine hguards sts p [] rfl ?_
    rw [← build_current hbuild hle]
    simpa [Site.root, hinner] using hroot

/-! ### What registers get hold of -/

lemma exists_register_vertex {sts : List Statement} {g : Graph}
    (h : sts.foldlM Statement.apply .empty = .ok g) (hsize : g.size ≤ 4294967296) {r : Register}
    (hr : .register r ∈ sts) : ∃ v, g.vertex? v = some (.register r) := by
  obtain ⟨pre, post, rfl⟩ := List.append_of_mem hr
  obtain ⟨g₁, g₂, -, hst, hpost⟩ := build_split h
  obtain rfl := register_apply hst
  refine ⟨g₁.size, ?_⟩
  rw [(build_extends hpost hsize).vertex?_eq (by simp; omega), r.vertex_register g₁]

section Parts

variable {sts : List Statement} {g : Graph} (hbuild : sts.foldlM Statement.apply .empty = .ok g)
  (hsize : g.size ≤ 4294967296)
include hbuild hsize

/-- A register vertex comes from a register. -/
lemma not_inner_register {v : Nat} {r : Register} (hv : g.vertex? v = some (.register r)) :
    ¬ Inner sts v := by
  rintro ⟨st, hst, hinner⟩
  obtain ⟨st', hst', hmakes⟩ := build_maker hbuild hsize hv
  obtain rfl := Option.some.inj (hst.symm.trans hst')
  simp [hmakes.register, Statement.isInner] at hinner

/-- **Parts have nothing of a definition** when no part of one is exposed. -/
theorem isolated_of_not_exposed
    (hexp : ∀ pre p post, sts = pre ++ .callee p :: post → ¬ p.Exposed g sts pre) :
    Isolated sts (g.decompose (List.range g.size)) := by
  have hguards : GuardsFollow sts := fun pre p post hsts hdef => by
    by_contra hne
    exact hexp pre p post hsts (Or.inr ⟨hdef, hne⟩)
  have hsep := build_separated hbuild hsize hguards
  -- the property that spreads from the registers
  have hnext : ∀ v, ¬ Inner sts v → ∀ w ∈ g.joined g.bodyLinks v, ¬ Inner sts w := by
    intro v hv w hw
    rcases mem_joined.mp hw with ⟨e, he, ⟨rfl, rfl⟩ | ⟨rfl, rfl⟩⟩ | hlink | hlink
    · rwa [← hsep.edge e he]
    · rwa [hsep.edge e he]
    · obtain ⟨-, r, hr⟩ := mem_bodyLinks hlink
      exact not_inner_register hbuild hsize hr
    · rintro ⟨st, hst, hinner⟩
      obtain ⟨o, bit, r, ho, hbit, hr, hkind, hdecl⟩ := exists_bit_of_mem_bodyLinks hlink
      obtain ⟨st', hst', hmakes⟩ := build_maker hbuild hsize ho
      obtain rfl := Option.some.inj (hst.symm.trans hst')
      rcases hmakes.caller with ⟨i, rfl⟩ | ⟨p, rfl, hcaller, hname⟩
      · simp [Statement.isInner] at hinner
      · obtain ⟨pre, post, hsts⟩ := List.append_of_mem (mem_of_maker hst)
        refine hexp pre p post hsts (Or.inl ⟨hcaller, bit, hname ▸ hbit, r, ?_, hkind, hdecl⟩)
        obtain ⟨st', hst', hmakes⟩ := build_maker hbuild hsize hr
        exact hmakes.register ▸ mem_of_maker hst'
  have hseeds : ∀ v ∈ g.registers, ¬ Inner sts v := by
    intro v hv
    obtain ⟨r, hr⟩ := mem_registers_iff.mp hv
    exact not_inner_register hbuild hsize hr
  intro part hpart v hv
  obtain ⟨reached, hreached, rfl⟩ := List.mem_map.mp hpart
  have hmem : v ∈ reached := by simpa using (List.mem_filter.mp hv).2
  exact partitionFrom_induct hnext hseeds hreached hmem

/-- **An exposed part lies in a part of the graph.** -/
theorem exists_part_of_exposed {pre post : List Statement} {p : Part}
    (hsts : sts = pre ++ .callee p :: post) (hexp : p.Exposed g sts pre)
    {parts : List (List Nat)} (hparts : Components g parts) :
    ∃ part ∈ parts, (makers pre).length ∈ part := by
  subst hsts
  obtain ⟨g₁, g₂, hpre, hst, hpost⟩ := build_split hbuild
  have hext₂ := build_extends hpost hsize
  have hsize₂ := Nat.le_trans hext₂.size_le hsize
  have hsize₁ := Nat.le_trans (apply_extends hsize₂ hst).size_le hsize₂
  rw [build_size hpre hsize₁]
  obtain ⟨x, hx, hknown, rfl⟩ := callee_apply hsize₂ hst
  obtain ⟨-, hconbits, o, hname, hvertex⟩ := callee_site? hx
  rcases hexp with ⟨hcaller, bit, hbit, r, hr, hkind, hdecl⟩ | ⟨hdef, hguard⟩
  · -- the call is linked to a register that declares the bit
    obtain ⟨reg, hreg⟩ := exists_register_vertex hbuild hsize hr
    have ho : g.vertex? g₁.size = some (.caller o) := by
      rw [((Site.renders (build_wired hpre hsize₁) hknown).extends hext₂).vertex, hvertex,
        if_pos hcaller]
    obtain ⟨reg', r', hlink, hreg', -, -⟩ := exists_bodyLink ho (hname ▸ hbit) hreg hkind hdecl
    obtain ⟨part, hpart, hmem⟩ := hparts.register reg' r' hreg'
    exact ⟨part, hpart,
      hparts.parted.closed part hpart reg' hmem _ (mem_joined.mpr (Or.inr (Or.inr hlink)))⟩
  · -- the condition is linked to the register of its first bit
    have hroot : x.root g₁ = none := by
      have hcur : g₁.current = none := by
        rw [← Option.not_isSome_iff_eq_none, build_current hpre hsize₁, hdef]
        simp
      simp [Site.root, hcur]
    obtain ⟨c, hc⟩ := List.exists_mem_of_ne_nil _ hguard
    have hlink : (⟨.global, .clbit, c⟩, .conbit) ∈ x.links (x.root g₁) := by
      rw [hroot]
      exact List.mem_append_right _ (List.mem_map.mpr ⟨c, hconbits ▸ hc, rfl⟩)
    obtain ⟨reg, r, hreg, -, -, hpath⟩ :=
      hext₂.owned (Site.owned (build_wired hpre hsize₁) hknown hlink rfl)
    obtain ⟨part, hpart, hmem⟩ := hparts.register reg r hreg
    exact ⟨part, hpart, (hparts.mem_iff_of_path hpart hpath).mp hmem⟩

end Parts

/-- **When definitions stay out of the parts of a graph.** They do exactly when no part of a
definition is exposed; then the calls in a part all come from calls outside of definitions. -/
theorem components_isolated_iff {doc : Document} {g : Graph} {parts : List (List Nat)}
    (hbuild : doc.build = .ok g) (hsize : g.size ≤ 4294967296)
    (hparts : g.components = .ok parts) :
    (Isolated doc.statements parts ↔ ∀ pre p post, doc.statements = pre ++ .callee p :: post →
      ¬ p.Exposed g doc.statements pre) ∧
    (Isolated doc.statements parts → ∀ part ∈ parts, ∀ v ∈ part, ∀ o,
      g.vertex? v = some (.caller o) → ∃ i, (makers doc.statements)[v]? = some (.caller i)) := by
  have hg := build_wired hbuild hsize
  obtain ⟨-, rfl⟩ := (components_ok hg).mp hparts
  have hcomp := decompose_components hg
  refine ⟨⟨fun hiso pre p post hsts hexp => ?_, isolated_of_not_exposed hbuild hsize⟩, ?_⟩
  · obtain ⟨part, hpart, hmem⟩ := exists_part_of_exposed hbuild hsize hsts hexp hcomp
    refine hiso part hpart _ hmem ⟨.callee p, ?_, rfl⟩
    rw [hsts, makers_middle]
  · intro hiso part hpart v hv o ho
    obtain ⟨st, hst, hmakes⟩ := build_maker hbuild hsize ho
    rcases hmakes.caller with ⟨i, rfl⟩ | ⟨p, rfl, -⟩
    · exact ⟨i, hst⟩
    · exact absurd ⟨_, hst, rfl⟩ (hiso part hpart v hv)

/-! ### Bodies that read a classical bit -/

/-- A body that reads the only classical bit, called from outside. -/
def guardedCall : Document where
  statements := [.register ⟨.qubit, 0, 1⟩, .register ⟨.clbit, 0, 1⟩, .define ⟨"inner", 0, 1, 0⟩,
    .callee ⟨"X", [], [0], [], [], false, some ⟨[0], "==", 0⟩⟩, .caller ⟨"inner", [], [0], [], none⟩]

/-- The call is in the part of both registers, and the body is in none. -/
theorem guardedCall_isolated : ∃ g, guardedCall.build = .ok g ∧
    g.components = .ok [[0, 1, 2, 3, 6]] ∧ Isolated guardedCall.statements [[0, 1, 2, 3, 6]] := by
  obtain ⟨g, hbuild⟩ : ∃ g, guardedCall.build = .ok g := ⟨_, rfl⟩
  have hsize : g.size ≤ 4294967296 := by
    obtain rfl := Except.ok.inj hbuild
    decide
  have hparts : g.components = .ok [[0, 1, 2, 3, 6]] := by
    obtain rfl := Except.ok.inj hbuild
    cbv
  refine ⟨g, hbuild, hparts, (components_isolated_iff hbuild hsize hparts).1.mpr ?_⟩
  rintro pre p post hsts (⟨hcaller, -⟩ | ⟨hdef, -⟩)
  · have hmem : Statement.callee p ∈ guardedCall.statements := by simp [hsts]
    obtain rfl : p = ⟨"X", [], [0], [], [], false, some ⟨[0], "==", 0⟩⟩ := by
      simpa [guardedCall] using hmem
    simp at hcaller
  · -- nothing before the definition is a part
    rcases pre with _ | ⟨_, _ | ⟨_, _ | ⟨_, pre⟩⟩⟩
    · simp [guardedCall] at hsts
    · simp [guardedCall] at hsts
    · simp [guardedCall] at hsts
    · simp only [guardedCall, List.cons_append, List.cons.injEq] at hsts
      obtain ⟨-, -, rfl, -⟩ := hsts
      simp [Statement.isDefine] at hdef

/-- The same body, called from another one that nobody calls. -/
def nestedCall : Document where
  statements := [.register ⟨.qubit, 0, 1⟩, .register ⟨.clbit, 0, 1⟩, .define ⟨"inner", 0, 1, 0⟩,
    .callee ⟨"X", [], [0], [], [], false, some ⟨[0], "==", 0⟩⟩, .define ⟨"outer", 0, 1, 0⟩,
    .callee ⟨"inner", [], [0], [], [], true, none⟩]

/-- The body of the outer definition is in the part of the classical register. -/
theorem nestedCall_exposed : ∃ g, nestedCall.build = .ok g ∧
    g.components = .ok [[0, 1], [2, 3, 6, 7]] ∧
    (makers nestedCall.statements)[7]? =
      some (.callee ⟨"inner", [], [0], [], [], true, none⟩) ∧
    (∃ o, g.vertex? 7 = some (.caller o)) ∧
    ¬ Isolated nestedCall.statements [[0, 1], [2, 3, 6, 7]] := by
  refine ⟨_, rfl, by cbv, rfl, ⟨_, rfl⟩, fun h => ?_⟩
  exact h [2, 3, 6, 7] (by simp) 7 (by simp) ⟨_, rfl, rfl⟩

end Document
end QCircuit
