import Mathlib
import QCircuit.Proofs.Compile.Replay
import QCircuit.Proofs.Graph.Parts

/-!
Compiling keeps the program.

The circuit of a document has the gates of its program, on every qubit in the same order. The
parts of the graph may be translated one after the other, as no qubit is used in two of them.
-/

namespace QCircuit

open QCircuit.Graph

namespace Document

/-! ### Names -/

/-- The name that a vertex defines. -/
def nameOf? : Vertex → Option String
  | .define name .. => some name
  | _ => none

lemma nameOf?_of_operation {vertex : Vertex} {o : Operation} (h : vertex.operation? = some o) :
    nameOf? vertex = none := by
  cases vertex <;> simp_all [nameOf?, Vertex.operation?]

lemma build_names {sts : List Statement} {g : Graph}
    (h : sts.foldlM Statement.apply .empty = .ok g) (hsize : g.size ≤ 4294967296) :
    g.vertices.filterMap nameOf? = sts.filterMap Statement.definedName? := by
  refine build_induct (P := fun sts g => g.vertices.filterMap nameOf? =
    sts.filterMap Statement.definedName?) rfl ?_ h hsize
  intro sts st g g' _ hsize hst ih
  rw [List.filterMap_append, ← ih]
  rcases apply_cases hsize hst with ⟨r, rfl, rfl⟩ | ⟨d, rfl, rfl⟩ | ⟨x, hx, -, rfl⟩
  · have hinit : nameOf? (Vertex.init r.kind) = none := by cases r.kind <;> rfl
    have hnone : (List.replicate r.count (Vertex.init r.kind)).filterMap nameOf? = [] := by
      refine List.filterMap_eq_nil_iff.mpr fun v hv => ?_
      rw [List.eq_of_mem_replicate hv, hinit]
    have hvertices : (r.addTo g).vertices =
        g.vertices ++ .register r :: List.replicate r.count (.init r.kind) := by
      simp [Graph.vertices, Register.addTo]
    rw [hvertices, List.filterMap_append, List.filterMap_cons, hnone]
    rfl
  · simp [Graph.vertices, Head.addTo, Statement.definedName?, nameOf?]
  · obtain ⟨o, ho, -⟩ := site?_operation hx
    have hnot : st.definedName? = none := by
      cases st <;> first | rfl | simp [Statement.site?] at hx
    simp [Graph.vertices, Site.addTo, hnot, nameOf?_of_operation ho]

lemma build_definedNames {sts : List Statement} {g : Graph}
    (h : sts.foldlM Statement.apply .empty = .ok g) (hsize : g.size ≤ 4294967296) :
    g.definedNames = definedNames sts := by
  unfold Graph.definedNames definedNames
  rw [← build_names h hsize]
  congr 1

end Document

/-! ### Vertices outside of definitions -/

section Tops

variable {sts : List Document.Statement} {g : Graph} {n : Numbering}
  {ix : BitKind → Nat → Option Nat} (hn : Places n ix) (ho : Document.Origin sts g)
  (hdecl : Document.SlotsDeclared none sts)

lemma topParams_literals {o : Operation} {params params' : List Float}
    (hp : o.params = literals params) (h : topParams o = .ok params') : params' = params := by
  rw [topParams, mapError_eq_ok, Operation.resolve, hp, resolve_literals] at h
  exact (Except.ok.inj h).symm

lemma Document.Invocation.operation?_eq_some {i : Document.Invocation} {o : Operation}
    (h : i.operation? = some o) : o.name = i.name ∧ o.qubits = i.qubits ∧
      o.params = literals i.params ∧ Document.comparison? i.condition = some o.comparison := by
  obtain ⟨cmp, hcmp, rfl⟩ := Option.map_eq_some_iff.mp h
  exact ⟨rfl, rfl, rfl, hcmp⟩

include hn ho hdecl in
/-- **A vertex replays its statement.** -/
theorem trace_replay {v : Nat} {st : Document.Statement} (htop : st.isTop)
    (hst : st.RendersAt g v) {cs : List Schedule.Call} (h : g.trace n v = .ok cs) :
    ∃ gates, st.replay? sts ix = some gates ∧ Agree (cs.flatMap Schedule.Call.gates) gates := by
  have hsup := Document.build_supplied ho.built ho.words ho.loopless
  obtain ⟨x, hx, hr⟩ := hst
  have hv := hr.lt_size
  obtain ⟨vertex, hvertex, h⟩ := bind_eq_ok.mp h
  rw [mapError_eq_ok, vertex_ok ho.words hv, hr.vertex] at hvertex
  obtain rfl := Option.some.inj hvertex
  cases st with
  | op i =>
    obtain ⟨o, hop, rfl⟩ := Option.map_eq_some_iff.mp hx
    obtain ⟨hname, hqubits, hparams, hcmp⟩ := Document.Invocation.operation?_eq_some hop
    obtain ⟨condition, hcond, h⟩ := bind_eq_ok.mp h
    obtain ⟨dense, hdense, h⟩ := bind_eq_ok.mp h
    have hcond' := condition_replay hn ho.words hv hcmp hr.conbits hcond
    rw [hqubits] at hdense
    have hix := mapM_dense hn hdense
    simp only [hname] at h
    split at h
    · next hmeasure =>
      obtain ⟨clbits, targets, hclbits, htargets, hlen, rfl⟩ := measureTrace_ok h
      rw [incidentBits_ok ho.words hv, hr.clbits] at hclbits
      obtain rfl := Except.ok.inj hclbits
      refine ⟨_, ?_, .refl _⟩
      simp [Document.Statement.replay?, hcond', hix, hmeasure, mapM_dense hn htargets, hlen,
        Schedule.Call.gates]
    · next hmeasure =>
      obtain ⟨params, htop, h⟩ := bind_eq_ok.mp h
      obtain rfl := topParams_literals hparams htop
      obtain rfl := Except.ok.inj h
      refine ⟨_, ?_, .refl _⟩
      simp [Document.Statement.replay?, hcond', hix, hmeasure, Schedule.Call.gates]
  | caller i =>
    obtain ⟨o, hop, rfl⟩ := Option.map_eq_some_iff.mp hx
    obtain ⟨hname, hqubits, hparams, hcmp⟩ := Document.Invocation.operation?_eq_some hop
    obtain ⟨condition, hcond, h⟩ := bind_eq_ok.mp h
    obtain ⟨params, htop, h⟩ := bind_eq_ok.mp h
    obtain rfl := topParams_literals hparams htop
    have hcond' := condition_replay hn ho.words hv hcmp hr.conbits hcond
    have hnd := hsup.nodup hr.vertex rfl
    rw [hqubits] at hnd
    rw [hqubits, hname, Document.build_definedNames ho.built ho.words] at h
    obtain ⟨gates, hgates, hagree⟩ := callTrace_replay hn ho hdecl hnd h
    exact ⟨gates, by simp [Document.Statement.replay?, hcond', hgates], hagree⟩
  | _ => simp [Document.Statement.isTop] at htop

end Tops

/-! ### The order of the parts -/

section Parts

variable {sts : List Document.Statement} {g : Graph} {parts : List (List Nat)}

lemma Graph.Components.flatten_nodup (h : Components g parts) : parts.flatten.Nodup := by
  rw [List.nodup_flatten]
  exact ⟨fun part hpart => (h.ascending part hpart).nodup, h.parted.apart⟩

lemma Graph.Components.lt_size_of_mem_flatten (h : Components g parts) {v : Nat}
    (hv : v ∈ parts.flatten) : v < g.size := by
  obtain ⟨part, hpart, hv⟩ := List.mem_flatten.mp hv
  exact h.lt_size hpart hv

/-- A bit belongs to a register that declares it. -/
lemma declares_of_owned (hbuild : sts.foldlM Document.Statement.apply .empty = .ok g)
    (hsize : g.size ≤ 4294967296)
    (hbounded : ∀ r ∈ sts.filterMap Document.Statement.register?, r.start + r.count < 4294967296)
    {leaf : Leaf} {v : Nat} (h : g.Owned leaf v) :
    ∃ reg r, g.vertex? reg = some (.register r) ∧ r.kind = leaf.kind ∧ r.declares leaf.id ∧
      Relation.ReflTransGen g.Touches reg v := by
  obtain ⟨reg, r, hr, hkind, ⟨i, hi, hid⟩, hpath⟩ := h
  refine ⟨reg, r, hr, hkind, ?_, hpath⟩
  have := hbounded r (Document.build_registers hbuild hsize hr)
  rw [hid, Register.bit_eq (by omega)]
  simp only [Register.declares, Bool.and_eq_true, decide_eq_true_eq]
  omega

/-- Two users of a bit lie in the same part. -/
lemma Graph.Components.mem_of_owned (h : Components g parts)
    (hbuild : sts.foldlM Document.Statement.apply .empty = .ok g) (hsize : g.size ≤ 4294967296)
    (hregs : Document.RegistersApart sts) {leaf : Leaf} {v w : Nat} (hv : g.Owned leaf v)
    (hw : g.Owned leaf w) {part : List Nat} (hpart : part ∈ parts) (hvp : v ∈ part) : w ∈ part := by
  obtain ⟨reg, r, hr, hrk, hd, hrpath⟩ := declares_of_owned hbuild hsize hregs.bounded hv
  obtain ⟨reg', r', hr', hrk', hd', hrpath'⟩ := declares_of_owned hbuild hsize hregs.bounded hw
  have hkind : r.kind = r'.kind := hrk.trans hrk'.symm
  obtain rfl : reg = reg' := by
    by_contra hne
    rcases Nat.lt_or_gt_of_ne hne with hlt | hlt
    · exact Document.build_apart hbuild hsize hregs hlt hr hr' hkind hd hd'
    · exact Document.build_apart hbuild hsize hregs hlt hr' hr hkind.symm hd' hd
  exact (h.mem_iff_of_path hpart hrpath').mp ((h.mem_iff_of_path hpart hrpath).mpr hvp)

/-- What stands in no body is joined to the registers of its bits. -/
lemma owned_of_rootOf (hbuild : sts.foldlM Document.Statement.apply .empty = .ok g)
    (hsize : g.size ≤ 4294967296) {v : Nat} (hroot : g.rootOf v = none) {wire : Wire} {b : Nat}
    (hb : b ∈ g.bitsInto v wire) : g.Owned ⟨.global, wire.kind, b⟩ v := by
  obtain ⟨e, he, rfl, hbit⟩ := mem_bitsInto.mp hb
  exact (Document.build_outside hbuild hsize e he hroot).2 wire b hbit

/-- A gate or call outside of definitions has a qubit and is joined to the registers of its bits. -/
lemma owned_of_isTop (ho : Document.Origin sts g) {v : Nat} (hv : v ∈ g.tops) :
    g.bitsInto v .qubit ≠ [] ∧
      ∀ wire, ∀ b ∈ g.bitsInto v wire, g.Owned ⟨.global, wire.kind, b⟩ v := by
  obtain ⟨st, hst, x, hx, hr, -⟩ :=
    exists_of_forall₂ (Document.build_tops ho.built ho.words ho.qubits) hv
  have hroot : g.rootOf v = none := by
    have htop := (List.mem_filter.mp hv).2
    simpa using (Bool.and_eq_true_iff.mp htop).2
  refine ⟨fun hnil => ?_, fun wire b hb => owned_of_rootOf ho.built ho.words hroot hb⟩
  rw [hr.qubits] at hnil
  exact ho.qubits st (List.mem_of_mem_filter hst) (by rw [Document.site?_qubits hx, hnil])

lemma Graph.Components.exists_of_isTop (h : Components g parts) (ho : Document.Origin sts g)
    {v : Nat} (hv : v ∈ g.tops) : ∃ part ∈ parts, v ∈ part := by
  obtain ⟨hne, howned⟩ := owned_of_isTop ho hv
  obtain ⟨q, hq⟩ := List.exists_mem_of_ne_nil _ hne
  obtain ⟨reg, r, hr, -, -, hpath⟩ := howned .qubit q hq
  obtain ⟨part, hpart, hreg⟩ := h.register reg r hr
  exact ⟨part, hpart, (h.mem_iff_of_path hpart hpath).mp hreg⟩

/-- Whether a vertex uses the qubit with this index. -/
def usesIndex (g : Graph) (ix : BitKind → Nat → Option Nat) (v d : Nat) : Bool :=
  (g.bitsInto v .qubit).any fun q => ix .qubit q == some d

/-- **The parts keep the order of the users of a qubit.** -/
theorem Graph.Components.filter_usesIndex (h : Components g parts) (ho : Document.Origin sts g)
    (hregs : Document.RegistersApart sts) {ix : BitKind → Nat → Option Nat}
    (hinj : ∀ {a b d}, ix .qubit a = some d → ix .qubit b = some d → a = b) (d : Nat) :
    (parts.flatten.filter g.isTop).filter (usesIndex g ix · d) =
      g.tops.filter (usesIndex g ix · d) := by
  have htops : ∀ v < g.size, (usesIndex g ix v d && g.isTop v) = true →
      v ∈ g.tops ∧ ∃ q ∈ g.bitsInto v .qubit, ix .qubit q = some d := by
    intro v hv hP
    simp only [Bool.and_eq_true, usesIndex, List.any_eq_true, beq_iff_eq] at hP
    exact ⟨List.mem_filter.mpr ⟨List.mem_range.mpr hv, hP.2⟩, hP.1⟩
  rw [List.filter_filter, tops, List.filter_filter]
  refine filter_flatten h.ascending (fun part hpart v hv => h.lt_size hpart hv) h.parted.apart ?_ ?_
  · exact fun v hv hP => h.exists_of_isTop ho (htops v hv hP).1
  · intro part hpart v hv w hw hPv hPw
    obtain ⟨htv, q, hq, hqd⟩ := htops v (h.lt_size hpart hv) hPv
    obtain ⟨htw, q', hq', hqd'⟩ := htops w hw hPw
    obtain rfl := hinj hqd hqd'
    exact h.mem_of_owned ho.built ho.words hregs ((owned_of_isTop ho htv).2 .qubit q hq)
      ((owned_of_isTop ho htw).2 .qubit q hq') hpart hv

lemma Graph.Components.perm_tops (h : Components g parts) (ho : Document.Origin sts g) :
    (parts.flatten.filter g.isTop).Perm g.tops := by
  refine (List.perm_ext_iff_of_nodup (h.flatten_nodup.filter _) (List.nodup_range.filter _)).mpr ?_
  intro v
  constructor
  · intro hv
    obtain ⟨hmem, htop⟩ := List.mem_filter.mp hv
    exact List.mem_filter.mpr ⟨List.mem_range.mpr (h.lt_size_of_mem_flatten hmem), htop⟩
  · intro hv
    obtain ⟨part, hpart, hmem⟩ := h.exists_of_isTop ho hv
    exact List.mem_filter.mpr ⟨List.mem_flatten.mpr ⟨part, hpart, hmem⟩, (List.mem_filter.mp hv).2⟩

end Parts

/-! ### Whole documents -/

lemma flatMap_filter_of_nil {F : Nat → List Gate} {P : Nat → Bool} {vs : List Nat}
    (h : ∀ v ∈ vs, P v = false → F v = []) : vs.flatMap F = (vs.filter P).flatMap F := by
  induction vs with
  | nil => rfl
  | cons v vs ih =>
    rw [List.flatMap_cons, ih fun w hw => h w (List.mem_cons_of_mem _ hw), List.filter_cons]
    cases hP : P v with
    | true => rfl
    | false => rw [h v List.mem_cons_self hP]; rfl

lemma Document.mapM_replay?_tops {sts all : List Document.Statement}
    {ix : BitKind → Nat → Option Nat} {gss : List (List Gate)}
    (h : (sts.filter (·.isTop)).mapM (Document.Statement.replay? all ix) = some gss) :
    ∃ gss', sts.mapM (Document.Statement.replay? all ix) = some gss' ∧
      gss'.flatten = gss.flatten := by
  induction sts generalizing gss with
  | nil =>
    obtain rfl := Option.some.inj h
    exact ⟨[], rfl, rfl⟩
  | cons st sts ih =>
    cases htop : st.isTop with
    | true =>
      rw [List.filter_cons_of_pos htop, List.mapM_cons] at h
      simp only [Option.bind_eq_bind, Option.bind_eq_some_iff, Option.pure_def,
        Option.some.injEq] at h
      obtain ⟨gates, hgates, rest, hrest, rfl⟩ := h
      obtain ⟨gss', hgss', heq⟩ := ih hrest
      exact ⟨gates :: gss', by rw [List.mapM_cons, hgates, hgss']; rfl, by simp [heq]⟩
    | false =>
      rw [List.filter_cons_of_neg (by simp [htop])] at h
      obtain ⟨gss', hgss', heq⟩ := ih h
      have hnil : st.replay? all ix = some [] := by
        cases st <;> first | rfl | simp [Document.Statement.isTop] at htop
      exact ⟨[] :: gss', by rw [List.mapM_cons, hnil, hgss']; rfl, by simpa using heq⟩

/-- What stands outside of bodies and is no gate and no call makes no calls. -/
lemma trace_of_not_isTop {g : Graph} (n : Numbering) {v : Nat} (hsize : g.size ≤ 4294967296)
    (hv : v < g.size) (hroot : g.rootOf v = none) (htop : g.isTop v = false) :
    g.trace n v = .ok [] := by
  obtain ⟨node, hnode⟩ := exists_node hv
  have hvertex : g.vertex? v = some node.vertex := by simp [vertex?, hnode]
  unfold trace
  rw [(vertex_ok hsize hv).mpr hvertex]
  cases hk : node.vertex <;> simp [isTop, hvertex, hk, hroot, Vertex.operation?] at htop <;> rfl

/-- No part of the graph holds a vertex of a body. -/
def Graph.BodiesApart (g : Graph) : Prop :=
  ∀ parts, g.components = .ok parts → ∀ part ∈ parts, ∀ v ∈ part, g.rootOf v = none

section Compiling

variable {sts : List Document.Statement} {g : Graph} {n : Numbering}
  {ix : BitKind → Nat → Option Nat} (hn : Places n ix) (ho : Document.Origin sts g)
  (hdecl : Document.SlotsDeclared none sts)

include hn ho hdecl in
/-- What stands outside of definitions replays the document. -/
lemma tops_replay (hok : ∀ v ∈ g.tops, ∃ cs, g.trace n v = .ok cs) :
    ∃ program, Document.replay? ⟨sts⟩ ix = some program ∧
      Agree (g.tops.flatMap (gatesOf (g.trace n))) program := by
  have htops := Document.build_tops ho.built ho.words ho.qubits
  obtain ⟨gss, hgss, hagree⟩ := forall₂_agree (F := gatesOf (g.trace n))
    (f := Document.Statement.replay? sts ix) htops fun v hv st hst ⟨x, hx, hr, _⟩ => by
      obtain ⟨cs, hcs⟩ := hok v hv
      rw [gatesOf_ok hcs]
      exact trace_replay hn ho hdecl (List.mem_filter.mp hst).2 ⟨x, hx, hr⟩ hcs
  obtain ⟨gss', hgss', hflatten⟩ := Document.mapM_replay?_tops hgss
  refine ⟨gss'.flatten, ?_, hflatten ▸ hagree⟩
  simp [Document.replay?, hgss']

end Compiling

/-- **Compiling keeps the program**: the circuit has the gates of the program of the document that
do something, on every qubit in the order of the program. Vertices are numbered by 32-bit words, so
a graph has at most as many of them as there are words. -/
theorem compile_replays {d : Document} {g : Graph} {c : Circuit} (hbuild : d.build = .ok g)
    (hsize : g.size ≤ 4294967296) (hregs : Document.RegistersApart d.statements)
    (hqubits : Document.HasQubits d.statements)
    (hslots : Document.SlotsDeclared none d.statements) (hbodies : g.BodiesApart)
    (hc : g.compile = .ok c) :
    ∃ parts program, g.components = .ok parts ∧
      d.replay? (g.index parts.flatten) = some program ∧
        (∀ q, (nonIdentity c.gates).filter (·.names q) =
          (nonIdentity program).filter (·.names q)) ∧
          (nonIdentity c.gates).Perm (nonIdentity program) := by
  have hg := Document.build_wired hbuild hsize
  obtain ⟨parts, hparts, hc⟩ := bind_eq_ok.mp hc
  obtain ⟨hloop, hdecompose⟩ := (components_ok hg).mp hparts
  have ho : Document.Origin d.statements g := ⟨hbuild, hsize, hqubits, hloop⟩
  have hcomp : Components g parts := hdecompose ▸ decompose_components hg
  obtain ⟨n, css, s, hn, hcss, hs, hflat⟩ := compileVertices_ok.mp hc
  have hplaces := places_index hbuild hsize hregs hcomp.flatten_nodup
    (fun v hv => hcomp.lt_size_of_mem_flatten hv) hn
  have hroot : ∀ v ∈ parts.flatten, g.rootOf v = none := by
    intro v hv
    obtain ⟨part, hpart, hv⟩ := List.mem_flatten.mp hv
    exact hbodies parts hparts part hpart v hv
  have hnil : ∀ v ∈ parts.flatten, g.isTop v = false → g.trace n v = .ok [] := fun v hv htop =>
    trace_of_not_isTop n hsize (hcomp.lt_size_of_mem_flatten hv) (hroot v hv) htop
  have hmem : ∀ v ∈ g.tops, v ∈ parts.flatten := fun v hv =>
    (List.mem_filter.mp ((hcomp.perm_tops ho).mem_iff.mpr hv)).1
  have hsup := Document.build_supplied hbuild hsize hloop
  have hon : ∀ v ∈ parts.flatten, ∀ cs, g.trace n v = .ok cs →
      OnQubits (g.index parts.flatten) (g.bitsInto v .qubit) cs := fun v hv cs hcs =>
    trace_onQubits hplaces hsup hsize (hcomp.lt_size_of_mem_flatten hv) hcs
  -- the schedule keeps the calls
  have hsched : Agree (nonIdentity c.gates)
      (nonIdentity (parts.flatten.flatMap (gatesOf (g.trace n)))) := by
    rw [← flatMap_gatesOf hcss]
    refine Schedule.flatten_agree hs (fun k hk => ?_) hflat
    obtain ⟨cs, hcs, hk⟩ := List.mem_flatten.mp hk
    obtain ⟨v, hv, hvcs⟩ := exists_of_mapM hcss hcs
    exact (hon v hv cs hvcs k hk).1
  -- the parts keep the order of the users of a qubit
  have horder : Agree (parts.flatten.flatMap (gatesOf (g.trace n)))
      (g.tops.flatMap (gatesOf (g.trace n))) := by
    rw [flatMap_filter_of_nil (P := g.isTop) fun v hv htop => by
      rw [gatesOf_ok (hnil v hv htop)]
      rfl]
    refine agree_flatMap (usesIndex g (g.index parts.flatten)) (hcomp.perm_tops ho)
      (hcomp.filter_usesIndex ho hregs hplaces.inj) fun v hv k hk d hd => ?_
    have hv := (List.mem_filter.mp hv).1
    obtain ⟨cs, -, hcs⟩ := ok_of_mapM hcss hv
    rw [gatesOf_ok hcs] at hk
    obtain ⟨call, hcall, hk⟩ := List.mem_flatMap.mp hk
    obtain ⟨q, hq, hqd⟩ := (hon v hv cs hcs call hcall).2 d (Schedule.qubits_of_mem_gates hk d hd)
    simp only [usesIndex, List.any_eq_true, beq_iff_eq]
    exact ⟨q, hq, hqd⟩
  obtain ⟨program, hprogram, hagree⟩ := tops_replay hplaces ho hslots fun v hv => by
    obtain ⟨cs, -, hcs⟩ := ok_of_mapM hcss (hmem v hv)
    exact ⟨cs, hcs⟩
  have hall := hsched.trans ((horder.trans hagree).filter _)
  exact ⟨parts, program, hparts, hprogram, hall.onQubit, hall.perm⟩

/-! ### A document with two parts -/

/-- Two qubits are entangled and one is measured; the outcome flips the other one. A third qubit
has nothing to do with them. -/
def Document.bell : Document where
  statements := [
    .register ⟨.qubit, 0, 2⟩, .register ⟨.clbit, 0, 1⟩,
    .register ⟨.qubit, 4, 1⟩, .register ⟨.clbit, 4, 1⟩,
    .define ⟨"bell", 0, 2, 0⟩,
    .callee ⟨"H", [], [0], [], [], false, none⟩,
    .callee ⟨"CX", [], [0, 1], [], [], false, none⟩,
    .caller ⟨"bell", [], [0, 1], [], none⟩,
    .op ⟨"H", [], [4], [], none⟩,
    .op ⟨"MEASURE", [], [1], [0], none⟩,
    .op ⟨"MEASURE", [], [4], [4], none⟩,
    .op ⟨"X", [], [0], [], some ⟨[0], "==", 1⟩⟩]

def Graph.bell : Graph := Document.bell.build.toOption.getD .empty

def Circuit.bell : Circuit := Graph.bell.compile.toOption.getD ⟨[], 0, 0⟩

lemma bell_build : Document.bell.build = .ok Graph.bell := by cbv

lemma bell_size : Graph.bell.size ≤ 4294967296 := by cbv

lemma bell_components :
    Graph.bell.components = .ok [[0, 1, 2, 3, 4, 12, 14, 16], [5, 6, 7, 8, 13, 15]] := by
  cbv

lemma bell_compile : Graph.bell.compile = .ok Circuit.bell := by
  -- the parts are known by now, which leaves the schedule to evaluate
  have h : Graph.bell.compile =
      Graph.bell.compileVertices [0, 1, 2, 3, 4, 12, 14, 16, 5, 6, 7, 8, 13, 15] := by
    rw [Graph.compile, bell_components]
    rfl
  rw [Circuit.bell, h]
  cbv

lemma bell_registersApart : Document.RegistersApart Document.bell.statements := by
  refine ⟨?_, by decide⟩
  simp only [Document.bell, List.filterMap_cons, Document.Statement.register?, List.filterMap_nil,
    List.pairwise_cons, Register.declares, Bool.and_eq_true, decide_eq_true_eq]
  simp
  omega

lemma bell_slotsDeclared : Document.SlotsDeclared none Document.bell.statements := by
  simp only [Document.bell, Document.SlotsDeclared, Document.Statement.headAfter]
  simp
  decide

lemma bell_bodiesApart : Graph.bell.BodiesApart := by
  intro parts h
  obtain rfl := Except.ok.inj (bell_components.symm.trans h)
  decide

theorem bell_replays :
    Document.bell.build = .ok Graph.bell ∧ Graph.bell.compile = .ok Circuit.bell ∧
      ∃ parts program, Graph.bell.components = .ok parts ∧
        Document.bell.replay? (Graph.bell.index parts.flatten) = some program ∧
          (∀ q, (nonIdentity Circuit.bell.gates).filter (·.names q) =
            (nonIdentity program).filter (·.names q)) ∧
            (nonIdentity Circuit.bell.gates).Perm (nonIdentity program) :=
  ⟨bell_build, bell_compile, compile_replays bell_build bell_size bell_registersApart (by decide)
    bell_slotsDeclared bell_bodiesApart bell_compile⟩

end QCircuit
