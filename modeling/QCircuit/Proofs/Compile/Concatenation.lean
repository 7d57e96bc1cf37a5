import QCircuit.Proofs.Compile.Preservation
import QCircuit.Proofs.Compile.Raising
import QCircuit.Proofs.Schedule.Joining

/-!
Compiling a graph whole, or one part at a time.

A part declares all bits that its vertices use. So the whole graph numbers the bits of a part as the
part does on its own, behind those of the parts before it, and the vertices of the part make the
same calls. The circuit of the whole graph is then the circuits of its parts side by side.
-/

namespace QCircuit

open QCircuit.Graph
open Schedule (Block)

namespace Graph

/-! ### The block of a list of vertices -/

/-- The numbering of a list of vertices. -/
def numbering (g : Graph) (vs : List Nat) : Numbering :=
  (Numbering.ofVertices g vs).toOption.getD {}

/-- How many bits the list has. -/
def extent (g : Graph) (vs : List Nat) : Extent := ⟨g.live vs .qubit, g.live vs .clbit⟩

/-- The calls of a list of vertices. -/
def traceAll (g : Graph) (n : Numbering) (vs : List Nat) :
    Except CompileError (List Schedule.Call) := do
  return (← vs.mapM (g.trace n)).flatten

/-- The calls of a list of vertices on bits of its own. -/
def block (g : Graph) (vs : List Nat) : Except CompileError Block := do
  return ⟨g.extent vs, ← g.traceAll (g.numbering vs) vs⟩

lemma ofVertices_numbering {g : Graph} (hsize : g.size ≤ 4294967296) {vs : List Nat}
    (hvs : ∀ v ∈ vs, v < g.size) : Numbering.ofVertices g vs = .ok (g.numbering vs) ∧
      ∀ kind, (g.numbering vs).map kind = .ofList (g.declared vs kind) ∧
        (g.numbering vs).live kind = g.live vs kind := by
  obtain ⟨n, hn, hkind⟩ := Numbering.ofVertices_ok hsize hvs
  have heq : g.numbering vs = n := by simp [numbering, hn, Except.toOption]
  exact ⟨by rw [heq, hn], by rwa [heq]⟩

/-- **Compiling vertices is scheduling their block.** -/
theorem compileVertices_block {g : Graph} (hsize : g.size ≤ 4294967296) {vs : List Nat}
    (hvs : ∀ v ∈ vs, v < g.size) {c : Circuit} :
    g.compileVertices vs = .ok c ↔ ∃ b, g.block vs = .ok b ∧ b.circuit = .ok c := by
  obtain ⟨hn, hkind⟩ := ofVertices_numbering hsize hvs
  have hlive : (g.numbering vs).liveQubits = (g.extent vs).qubits ∧
      (g.numbering vs).liveClbits = (g.extent vs).clbits := ⟨(hkind .qubit).2, (hkind .clbit).2⟩
  simp only [compileVertices_ok, hn, block, traceAll, bind_eq_ok, pure, Except.pure,
    Except.ok.injEq]
  constructor
  · rintro ⟨n, css, s, rfl, hcss, hs, hc⟩
    rw [hlive.1] at hs
    rw [hlive.2] at hc
    exact ⟨_, ⟨_, ⟨css, hcss, rfl⟩, rfl⟩, Block.circuit_ok.mpr ⟨s, hs, hc⟩⟩
  · rintro ⟨_, ⟨_, ⟨css, hcss, rfl⟩, rfl⟩, hc⟩
    obtain ⟨s, hs, hc⟩ := Block.circuit_ok.mp hc
    refine ⟨_, css, s, rfl, hcss, ?_, ?_⟩
    · rw [hlive.1]
      exact hs
    · rw [hlive.2]
      exact hc

lemma map_size_of_mapM {g : Graph} {parts : List (List Nat)} {bs : List Block}
    (h : parts.mapM g.block = .ok bs) : bs.map Block.size = parts.map g.extent := by
  rw [mapM_eq_ok_iff] at h
  induction h with
  | nil => rfl
  | cons hb _ ih =>
    obtain ⟨calls, -, h⟩ := bind_eq_ok.mp hb
    obtain rfl := Except.ok.inj h
    rw [List.map_cons, List.map_cons, ih]

lemma traceAll_append (g : Graph) (n : Numbering) (xs ys : List Nat) :
    g.traceAll n (xs ++ ys) = do return (← g.traceAll n xs) ++ (← g.traceAll n ys) := by
  simp [traceAll]

lemma traceAll_raise {g : Graph} {d : Extent} {m n : Numbering} {vs : List Nat}
    (h : ∀ v ∈ vs, Lifts (List.map (Schedule.Call.raise d)) (g.trace m v) (g.trace n v)) :
    Lifts (List.map (Schedule.Call.raise d)) (g.traceAll m vs) (g.traceAll n vs) := by
  refine (Lifts.mapM h).bind fun css _ => ?_
  rw [← List.map_flatten]
  exact .ok _ _

/-- The calls of parts that each make the calls of their blocks. -/
lemma traceAll_flatten {g : Graph} {n : Numbering} {parts : List (List Nat)} {d : Extent}
    (h : ∀ (k : Nat) (part : List Nat), parts[k]? = some part → ∀ v ∈ part,
      Lifts (List.map (Schedule.Call.raise (d + Extent.before (parts.map g.extent) k)))
        (g.trace (g.numbering part) v) (g.trace n v)) :
    Lifts (Block.joined d) (parts.mapM g.block) (g.traceAll n parts.flatten) := by
  induction parts generalizing d with
  | nil => exact .ok _ _
  | cons part parts ih =>
    have hfirst := traceAll_raise (h 0 part rfl)
    have hrest := ih (d := d + g.extent part) fun k p hp v hv => by
      have hlift := h (k + 1) p hp v hv
      rwa [List.map_cons, Extent.before_succ, ← Extent.add_assoc] at hlift
    rw [List.mapM_cons, block, bind_assoc, List.flatten_cons, traceAll_append]
    exact hfirst.bind fun calls _ => hrest.bind fun bs _ => .ok _ _

/-! ### The bits of a part -/

lemma extent_append (g : Graph) (xs ys : List Nat) :
    g.extent (xs ++ ys) = g.extent xs + g.extent ys := by
  rw [extent, live_append, live_append]
  rfl

lemma extent_flatten (g : Graph) (parts : List (List Nat)) :
    g.extent parts.flatten = .total (parts.map g.extent) := by
  induction parts with
  | nil => rfl
  | cons part parts ih =>
    rw [List.flatten_cons, extent_append, ih, List.map_cons, Extent.total_cons]

/-- The parts before a part take the bits before its own. -/
lemma before_extent (g : Graph) (parts : List (List Nat)) (k : Nat) :
    Extent.before (parts.map g.extent) k = g.extent (parts.take k).flatten := by
  rw [Extent.before, ← List.map_take, extent_flatten]

lemma extent_of (g : Graph) (vs : List Nat) (kind : BitKind) :
    (g.extent vs).of kind = g.live vs kind := by
  cases kind <;> rfl

end Graph

/-- A position in the middle of a list without repetitions. -/
lemma getElem?_middle {xs ys zs : List Nat} (hnd : (xs ++ (ys ++ zs)).Nodup) {b : Nat}
    (hb : b ∈ ys ∨ b ∉ xs ++ (ys ++ zs)) {x : Nat} :
    (xs ++ (ys ++ zs))[x]? = some b ↔ ∃ y, ys[y]? = some b ∧ xs.length + y = x := by
  have hmiddle : ∀ y, ys[y]? = some b → (xs ++ (ys ++ zs))[xs.length + y]? = some b := by
    intro y hy
    obtain ⟨hlt, -⟩ := List.getElem?_eq_some_iff.mp hy
    rw [List.getElem?_append_right (Nat.le_add_right ..), Nat.add_sub_cancel_left,
      List.getElem?_append_left hlt, hy]
  constructor
  · intro hx
    rcases hb with hb | hb
    · obtain ⟨y, hy⟩ := List.mem_iff_getElem?.mp hb
      refine ⟨y, hy, ?_⟩
      obtain ⟨hlt, hget⟩ := List.getElem?_eq_some_iff.mp hx
      obtain ⟨hlt', hget'⟩ := List.getElem?_eq_some_iff.mp (hmiddle y hy)
      exact (hnd.getElem_inj_iff).mp (hget'.trans hget.symm)
    · exact absurd (List.mem_of_getElem? hx) hb
  · rintro ⟨y, hy, rfl⟩
    exact hmiddle y hy

/-- A part has the initial vertices of the bits that its registers declare. -/
lemma Graph.Components.aligned {sts : List Document.Statement} {g : Graph}
    (hbuild : sts.foldlM Document.Statement.apply .empty = .ok g) (hsize : g.size ≤ 4294967296)
    (hbounded : ∀ r ∈ sts.filterMap Document.Statement.register?, r.start + r.count < 4294967296)
    {parts : List (List Nat)} (hcomp : Components g parts) {part : List Nat}
    (hpart : part ∈ parts) : g.Aligned part := by
  have hfilter : part = (List.range g.size).filter (· ∈ part) := by
    refine eq_of_ascending (hcomp.ascending part hpart) (List.pairwise_lt_range.filter _)
      fun v => ?_
    simpa using fun hv => hcomp.lt_size hpart hv
  rw [hfilter]
  refine Document.build_aligned hbuild hsize hbounded fun e he => ?_
  have ht : g.Touches e.source e.target := ⟨e, he, Or.inl ⟨rfl, rfl⟩⟩
  simpa using ⟨fun hs => hcomp.mem_of_touches hpart hs ht,
    fun hs => hcomp.mem_of_touches hpart hs ht.symm⟩

/-- A part declares the bits that edges bring to its vertices. -/
lemma Graph.Components.mem_declared_of_owned {sts : List Document.Statement} {g : Graph}
    (hbuild : sts.foldlM Document.Statement.apply .empty = .ok g) (hsize : g.size ≤ 4294967296)
    (hbounded : ∀ r ∈ sts.filterMap Document.Statement.register?, r.start + r.count < 4294967296)
    {parts : List (List Nat)} (hcomp : Components g parts) {part : List Nat}
    (hpart : part ∈ parts) {v : Nat} (hv : v ∈ part) {leaf : Leaf} (h : g.Owned leaf v) :
    leaf.id ∈ g.declared part leaf.kind := by
  obtain ⟨reg, r, hr, hkind, hd, hpath⟩ := declares_of_owned hbuild hsize hbounded h
  exact mem_declared.mpr ⟨reg, (hcomp.mem_iff_of_path hpart hpath).mpr hv, r, hr, hkind, hd⟩

/-- A part declares the bit that a body reads, if a register does. -/
lemma Graph.Components.mem_declared_of_bodyConbits {g : Graph} {parts : List (List Nat)}
    (hcomp : Components g parts) {part : List Nat} (hpart : part ∈ parts) {v : Nat} (hv : v ∈ part)
    {o : Operation} (ho : g.vertex? v = some (.caller o)) {b : Nat} (hb : b ∈ g.bodyConbits o.name)
    {reg : Nat} {r : Register} (hr : g.vertex? reg = some (.register r)) (hkind : r.kind = .clbit)
    (hd : r.declares b) : b ∈ g.declared part .clbit := by
  obtain ⟨reg', r', hlink, hr', hkind', hd'⟩ := exists_bodyLink ho hb hr hkind hd
  have hmem : reg' ∈ part :=
    hcomp.parted.closed part hpart v hv reg' (mem_joined.mpr (Or.inr (Or.inl hlink)))
  exact mem_declared.mpr ⟨reg', hmem, r', hr', hkind', hd'⟩

section Parts

variable {sts : List Document.Statement} {g : Graph} (ho : Document.Origin sts g)
  (hregs : Document.RegistersApart sts) {parts : List (List Nat)} (hcomp : Components g parts)
include ho hregs hcomp

/-- A part has as many live bits as its registers declare. -/
lemma Graph.Components.balanced {part : List Nat} (hpart : part ∈ parts) : g.Balanced part :=
  (hcomp.aligned ho.built ho.words hregs.bounded hpart).balanced

/-- **The whole graph numbers the bits of a part as the part does**, behind those of the parts
before it. -/
theorem Graph.Components.raises {k : Nat} {part : List Nat} (hk : parts[k]? = some part) :
    (g.numbering part).Raises (Extent.before (parts.map g.extent) k) (g.numbering parts.flatten)
      fun kind b => b ∈ g.declared part kind ∨ b ∉ g.declared parts.flatten kind := by
  have hpart := List.mem_of_getElem? hk
  have hal : ∀ p ∈ parts, g.Aligned p :=
    fun p hp => hcomp.aligned ho.built ho.words hregs.bounded hp
  have hnd := fun kind => declared_nodup ho.built ho.words hregs hcomp.flatten_nodup kind
  have hndp := fun kind => declared_nodup ho.built ho.words hregs
    (hcomp.ascending part hpart).nodup kind
  obtain ⟨-, hm⟩ := ofVertices_numbering ho.words fun v hv => hcomp.lt_size hpart hv
  obtain ⟨-, hn⟩ := ofVertices_numbering ho.words fun v hv => hcomp.lt_size_of_mem_flatten hv
  -- the declared bits of the whole, cut at the part
  have hcut : ∀ kind, g.declared parts.flatten kind = g.declared (parts.take k).flatten kind ++
      (g.declared part kind ++ g.declared (parts.drop (k + 1)).flatten kind) := by
    intro kind
    obtain ⟨hlt, hget⟩ := List.getElem?_eq_some_iff.mp hk
    rw [← declared_append, ← declared_append, ← List.flatten_cons, ← List.flatten_append, ← hget,
      ← List.drop_eq_getElem_cons hlt, List.take_append_drop]
  intro kind v b hb
  refine .of_ok_iff fun x => ?_
  have hoffset : (Extent.before (parts.map g.extent) k).of kind =
      (g.declared (parts.take k).flatten kind).length := by
    rw [before_extent, extent_of]
    exact (Aligned.flatten fun p hp => hal p (List.mem_of_mem_take hp)).balanced kind
  have hwhole : (g.declared parts.flatten kind)[x]? = some b ↔
      ∃ y, (g.declared part kind)[y]? = some b ∧
        (g.declared (parts.take k).flatten kind).length + y = x := by
    have hndk := hnd kind
    rw [hcut] at hndk hb ⊢
    exact getElem?_middle hndk hb
  simp only [Numbering.dense_ok, (hm kind).1, (hm kind).2, (hn kind).1, (hn kind).2,
    DenseMap.get?_ofList (hnd kind), DenseMap.get?_ofList (hndp kind), hoffset,
    (Aligned.flatten hal).balanced kind, (hal part hpart).balanced kind]
  rw [and_iff_left_of_imp fun h => (List.getElem?_eq_some_iff.mp h).1, hwhole]
  refine exists_congr fun y => ?_
  rw [and_iff_left_of_imp fun h => (List.getElem?_eq_some_iff.mp h).1]

/-- **A part declares the bits that its vertices use**, or no part does. -/
theorem Graph.Components.uses {part : List Nat} (hpart : part ∈ parts) {v : Nat} (hv : v ∈ part)
    (htop : v ∈ g.tops) :
    g.Uses (fun kind b => b ∈ g.declared part kind ∨ b ∉ g.declared parts.flatten kind) v := by
  have hbits : ∀ wire, ∀ b ∈ g.bitsInto v wire, b ∈ g.declared part wire.kind := fun wire b hb =>
    hcomp.mem_declared_of_owned ho.built ho.words hregs.bounded hpart hv
      ((owned_of_isTop ho htop).2 wire b hb)
  refine ⟨fun q hq => Or.inl (hbits .qubit q hq), fun b hb => Or.inl (hbits .clbit b hb),
    fun b hb => Or.inl (hbits .conbit b hb), fun o hvertex b hb => ?_⟩
  -- a call is linked to the register of a bit that its body reads
  by_cases hdecl : b ∈ g.declared parts.flatten .clbit
  · obtain ⟨reg, -, r, hr, hkind, hd⟩ := mem_declared.mp hdecl
    exact Or.inl (hcomp.mem_declared_of_bodyConbits hpart hv hvertex hb hr hkind hd)
  · exact Or.inr hdecl

/-- The calls of a part keep to its qubits. -/
lemma Graph.Components.keeps (hbodies : ∀ part ∈ parts, ∀ v ∈ part, g.rootOf v = none)
    {part : List Nat} (hpart : part ∈ parts) {b : Block} (hb : g.block part = .ok b) :
    b.Keeps := by
  obtain ⟨calls, hcalls, h⟩ := bind_eq_ok.mp hb
  obtain rfl := Except.ok.inj h
  obtain ⟨css, hcss, h⟩ := bind_eq_ok.mp hcalls
  obtain rfl := Except.ok.inj h
  have hlt : ∀ v ∈ part, v < g.size := fun v hv => hcomp.lt_size hpart hv
  have hsup := Document.build_supplied ho.built ho.words ho.loopless
  have hplaces := places_index ho.built ho.words hregs (hcomp.ascending part hpart).nodup hlt
    (ofVertices_numbering ho.words hlt).1
  intro call hcall
  obtain ⟨cs, hcs, hcall⟩ := List.mem_flatten.mp hcall
  obtain ⟨v, hv, htrace⟩ := exists_of_mapM hcss hcs
  obtain ⟨hnd, hfrom⟩ := trace_onQubits hplaces hsup ho.words (hlt v hv) htrace call hcall
  refine ⟨hnd, fun d hd => ?_, fun hm hnil => ?_⟩
  · obtain ⟨q, -, hqd⟩ := hfrom d hd
    have hndp := declared_nodup ho.built ho.words hregs (hcomp.ascending part hpart).nodup .qubit
    have hget := (idxOf?_eq_some_of_nodup hndp).mp hqd
    rw [show (g.extent part).qubits = g.live part .qubit from rfl,
      hcomp.balanced ho hregs hpart .qubit]
    exact (List.getElem?_eq_some_iff.mp hget).1
  · have hlen := length_qubits_of_trace hsup ho.words (hlt v hv) htrace call hcall hm
    cases htop : g.isTop v with
    | true =>
      have hmem : v ∈ g.tops := List.mem_filter.mpr ⟨List.mem_range.mpr (hlt v hv), htop⟩
      rw [hnil] at hlen
      exact (owned_of_isTop ho hmem).1 (List.length_eq_zero_iff.mp hlen.symm)
    | false =>
      have hnone := trace_of_not_isTop (g.numbering part) ho.words (hlt v hv)
        (hbodies part hpart v hv) htop
      obtain rfl := Except.ok.inj (hnone.symm.trans htrace)
      simp at hcall

/-- **The block of the whole graph joins the blocks of its parts.** -/
theorem Graph.Components.block_flatten
    (hbodies : ∀ part ∈ parts, ∀ v ∈ part, g.rootOf v = none) :
    Lifts Block.join (parts.mapM g.block) (g.block parts.flatten) := by
  have hsup := Document.build_supplied ho.built ho.words ho.loopless
  have hcalls : Lifts (Block.joined 0) (parts.mapM g.block)
      (g.traceAll (g.numbering parts.flatten) parts.flatten) := by
    refine traceAll_flatten fun k part hk v hv => ?_
    have hpart := List.mem_of_getElem? hk
    have hlt := hcomp.lt_size hpart hv
    rw [Extent.zero_add]
    cases htop : g.isTop v with
    | true =>
      have hmem : v ∈ g.tops := List.mem_filter.mpr ⟨List.mem_range.mpr hlt, htop⟩
      exact trace_raise (hcomp.raises ho hregs hk) ho.words hsup hlt
        (hcomp.uses ho hregs hpart hv hmem)
    | false =>
      have hroot := hbodies part hpart v hv
      rw [trace_of_not_isTop _ ho.words hlt hroot htop,
        trace_of_not_isTop _ ho.words hlt hroot htop]
      exact .ok _ _
  refine .of_ok_iff fun b => ?_
  simp only [block, bind_eq_ok, hcalls.ok_iff, pure, Except.pure, Except.ok.injEq]
  have hjoin : ∀ {bs}, parts.mapM g.block = .ok bs →
      Block.join bs = ⟨g.extent parts.flatten, Block.joined 0 bs⟩ := fun hbs => by
    rw [Block.join, extent_flatten, map_size_of_mapM hbs]
  constructor
  · rintro ⟨_, ⟨bs, hbs, rfl⟩, rfl⟩
    exact ⟨bs, hbs, hjoin hbs⟩
  · rintro ⟨bs, hbs, rfl⟩
    exact ⟨_, ⟨bs, hbs, rfl⟩, (hjoin hbs).symm⟩

lemma Graph.Components.compileVertices_flatten
    (hbodies : ∀ part ∈ parts, ∀ v ∈ part, g.rootOf v = none) {c : Circuit} :
    g.compileVertices parts.flatten = .ok c ↔
      ∃ bs, parts.mapM g.block = .ok bs ∧ (Block.join bs).circuit = .ok c := by
  rw [compileVertices_block ho.words fun v hv => hcomp.lt_size_of_mem_flatten hv]
  simp only [(hcomp.block_flatten ho hregs hbodies).ok_iff]
  constructor
  · rintro ⟨_, ⟨bs, hbs, rfl⟩, hc⟩
    exact ⟨bs, hbs, hc⟩
  · rintro ⟨bs, hbs, hc⟩
    exact ⟨_, ⟨bs, hbs, rfl⟩, hc⟩

lemma Graph.Components.keeps_of_mapM
    (hbodies : ∀ part ∈ parts, ∀ v ∈ part, g.rootOf v = none) {bs : List Block}
    (hbs : parts.mapM g.block = .ok bs) : ∀ b ∈ bs, b.Keeps := by
  intro b hb
  obtain ⟨part, hpart, hblock⟩ := exists_of_mapM hbs hb
  exact hcomp.keeps ho hregs hbodies hpart hblock

omit ho hregs in
/-- Compiling the parts is scheduling their blocks. -/
lemma Graph.Components.compileVertices_iff (hsize : g.size ≤ 4294967296) {part : List Nat}
    (hpart : part ∈ parts) {c : Circuit} :
    g.compileVertices part = .ok c ↔ ∃ b, g.block part = .ok b ∧ b.circuit = .ok c :=
  compileVertices_block hsize fun _ hv => hcomp.lt_size hpart hv

theorem Graph.Components.flatten_ok_iff
    (hbodies : ∀ part ∈ parts, ∀ v ∈ part, g.rootOf v = none) :
    (∃ c, g.compileVertices parts.flatten = .ok c) ↔
      ∀ part ∈ parts, ∃ c, g.compileVertices part = .ok c := by
  have hkeeps : ∀ {bs}, parts.mapM g.block = .ok bs → ∀ b ∈ bs, b.Keeps :=
    fun hbs => hcomp.keeps_of_mapM ho hregs hbodies hbs
  constructor
  · rintro ⟨c, hc⟩ part hpart
    obtain ⟨bs, hbs, hc⟩ := (hcomp.compileVertices_flatten ho hregs hbodies).mp hc
    obtain ⟨b, hb, hblock⟩ := ok_of_mapM hbs hpart
    obtain ⟨c', hc'⟩ := (Block.join_ok (hkeeps hbs)).mp ⟨c, hc⟩ b hb
    exact ⟨c', (hcomp.compileVertices_iff ho.words hpart).mpr ⟨b, hblock, hc'⟩⟩
  · intro h
    have hblocks : ∀ part ∈ parts, ∃ b, g.block part = .ok b ∧ ∃ c, b.circuit = .ok c := by
      intro part hpart
      obtain ⟨c, hc⟩ := h part hpart
      obtain ⟨b, hb, hc⟩ := (hcomp.compileVertices_iff ho.words hpart).mp hc
      exact ⟨b, hb, c, hc⟩
    obtain ⟨bs, hbs⟩ := exists_mapM_ok.mpr fun part hpart => by
      obtain ⟨b, hb, -⟩ := hblocks part hpart
      exact ⟨b, hb⟩
    obtain ⟨c, hc⟩ := (Block.join_ok (hkeeps hbs)).mpr fun b hb => by
      obtain ⟨part, hpart, hblock⟩ := exists_of_mapM hbs hb
      obtain ⟨b', hblock', hc⟩ := hblocks part hpart
      obtain rfl := Except.ok.inj (hblock.symm.trans hblock')
      exact hc
    exact ⟨c, (hcomp.compileVertices_flatten ho hregs hbodies).mpr ⟨bs, hbs, hc⟩⟩

theorem Graph.Components.flatten_sideBySide
    (hbodies : ∀ part ∈ parts, ∀ v ∈ part, g.rootOf v = none) {c : Circuit} {cs : List Circuit}
    (hc : g.compileVertices parts.flatten = .ok c) (hcs : parts.mapM g.compileVertices = .ok cs) :
    SideBySide c cs := by
  obtain ⟨bs, hbs, hc⟩ := (hcomp.compileVertices_flatten ho hregs hbodies).mp hc
  refine Block.join_sideBySide (hcomp.keeps_of_mapM ho hregs hbodies hbs) hc ?_
  refine forall₂_of_common (mapM_eq_ok_iff.mp hbs) (mapM_eq_ok_iff.mp hcs) ?_
  intro part hpart b c hb hc
  obtain ⟨b', hb', hc⟩ := (hcomp.compileVertices_iff ho.words hpart).mp hc
  obtain rfl := Except.ok.inj (hb.symm.trans hb')
  exact hc

end Parts

/-! ### Whole graphs -/

/-- **Compiling a graph whole is compiling its parts, side by side**: it succeeds when the graph
falls into parts and each of them compiles, and each part has its gates in a block of its own. As
vertices are numbered by 32-bit words, the graph has at most as many of them as there are words. -/
theorem compile_sideBySide {d : Document} {g : Graph} (hbuild : d.build = .ok g)
    (hsize : g.size ≤ 4294967296) (hregs : Document.RegistersApart d.statements)
    (hqubits : Document.HasQubits d.statements) (hbodies : g.BodiesApart) :
    ((∃ c, g.compile = .ok c) ↔ ∃ parts, g.components = .ok parts ∧
      ∀ part ∈ parts, ∃ c, g.compileVertices part = .ok c) ∧
    ∀ c, g.compile = .ok c → ∃ parts cs, g.components = .ok parts ∧
      parts.mapM g.compileVertices = .ok cs ∧ SideBySide c cs := by
  have hg := Document.build_wired hbuild hsize
  have horigin : ∀ {parts}, g.components = .ok parts →
      Document.Origin d.statements g ∧ Components g parts := by
    intro parts hparts
    obtain ⟨hloop, rfl⟩ := (components_ok hg).mp hparts
    exact ⟨⟨hbuild, hsize, hqubits, hloop⟩, decompose_components hg⟩
  have hcompile : ∀ {c}, g.compile = .ok c ↔
      ∃ parts, g.components = .ok parts ∧ g.compileVertices parts.flatten = .ok c := bind_eq_ok
  refine ⟨⟨?_, ?_⟩, fun c hc => ?_⟩
  · rintro ⟨c, hc⟩
    obtain ⟨parts, hparts, hc⟩ := hcompile.mp hc
    obtain ⟨ho, hcomp⟩ := horigin hparts
    exact ⟨parts, hparts, (hcomp.flatten_ok_iff ho hregs (hbodies parts hparts)).mp ⟨c, hc⟩⟩
  · rintro ⟨parts, hparts, hall⟩
    obtain ⟨ho, hcomp⟩ := horigin hparts
    obtain ⟨c, hc⟩ := (hcomp.flatten_ok_iff ho hregs (hbodies parts hparts)).mpr hall
    exact ⟨c, hcompile.mpr ⟨parts, hparts, hc⟩⟩
  · obtain ⟨parts, hparts, hc⟩ := hcompile.mp hc
    obtain ⟨ho, hcomp⟩ := horigin hparts
    have hall := (hcomp.flatten_ok_iff ho hregs (hbodies parts hparts)).mp ⟨c, hc⟩
    obtain ⟨cs, hcs⟩ := exists_mapM_ok.mpr hall
    exact ⟨parts, cs, hparts, hcs, hcomp.flatten_sideBySide ho hregs (hbodies parts hparts) hc hcs⟩

theorem bell_sideBySide :
    Document.bell.build = .ok Graph.bell ∧ Graph.bell.compile = .ok Circuit.bell ∧
      ∃ parts cs, Graph.bell.components = .ok parts ∧
        parts.mapM Graph.bell.compileVertices = .ok cs ∧ SideBySide Circuit.bell cs :=
  ⟨bell_build, bell_compile, (compile_sideBySide bell_build bell_size bell_registersApart
    (by decide) bell_bodiesApart).2 Circuit.bell bell_compile⟩

end QCircuit
