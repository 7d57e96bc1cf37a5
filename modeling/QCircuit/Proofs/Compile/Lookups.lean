import Mathlib
import QCircuit.Proofs.Compile.Concatenation
import QCircuit.Proofs.Compile.Failures
import QCircuit.Proofs.Graph.Isolation
import QCircuit.Proofs.Graph.Ownership

/-!
The bits that are looked up.

While a part of a graph is translated, its numbering is asked for the indices of bits: operands of
gates and calls, here and in the bodies that are expanded, targets of measurements, and the bits of
conditions. What uses a bit is joined to a register of it, by edges or by the links from calls to
the registers that their bodies read. So all these bits are declared in the part itself. Only a
condition inside of a body may read a bit that no register declares.
-/

namespace QCircuit

open QCircuit.Graph

namespace Graph

/-- The bits that are looked up at `w` when a call of the name on the qubits `qs` is expanded. -/
inductive LooksUpIn (g : Graph) : String → List Nat → BitKind → Nat → Nat → Prop
  | operand {name : String} {qs qs' : List Nat} {w q : Nat} {o : Operation}
      (mem : w ∈ g.bodyOf name)
      (vertex : g.vertex? w = some (.callee o) ∨ g.vertex? w = some (.caller o))
      (handed : (o.qubits.mapM fun slot => qs[slot]?) = some qs') (bit : q ∈ qs') :
      LooksUpIn g name qs .qubit w q
  | guard {name : String} {qs : List Nat} {w b : Nat} (mem : w ∈ g.bodyOf name)
      (bit : b ∈ g.bitsInto w .conbit) : LooksUpIn g name qs .clbit w b
  | nested {name : String} {qs qs' : List Nat} {v w b : Nat} {o : Operation} {kind : BitKind}
      (mem : v ∈ g.bodyOf name) (vertex : g.vertex? v = some (.caller o))
      (handed : (o.qubits.mapM fun slot => qs[slot]?) = some qs')
      (lookup : LooksUpIn g o.name qs' kind w b) : LooksUpIn g name qs kind w b

/-- The bits that are looked up at `w` when the vertices are translated. -/
inductive LooksUp (g : Graph) (vs : List Nat) : BitKind → Nat → Nat → Prop
  | operand {v q : Nat} {o : Operation} (mem : v ∈ vs)
      (vertex : g.vertex? v = some (.op o) ∨ g.vertex? v = some (.caller o)) (bit : q ∈ o.qubits) :
      LooksUp g vs .qubit v q
  | target {v b : Nat} (mem : v ∈ vs) (bit : b ∈ g.bitsInto v .clbit) : LooksUp g vs .clbit v b
  | guard {v b : Nat} (mem : v ∈ vs) (bit : b ∈ g.bitsInto v .conbit) : LooksUp g vs .clbit v b
  | expanded {v w b : Nat} {o : Operation} {kind : BitKind} (mem : v ∈ vs)
      (vertex : g.vertex? v = some (.caller o)) (lookup : g.LooksUpIn o.name o.qubits kind w b) :
      LooksUp g vs kind w b

end Graph

/-! ### Nothing else is looked up -/

/-- Two numberings answer these lookups alike. -/
def Numbering.AgreeOn (m n : Numbering) (P : BitKind → Nat → Nat → Prop) : Prop :=
  ∀ kind w b, P kind w b → m.dense kind w b = n.dense kind w b

section Agreeing

variable {g : Graph} {m n : Numbering}

lemma placeInBody_congr {s : Schedule} {v : Nat} {o : Operation} {c : CallContext}
    (h : ∀ q ∈ c.qubits, m.dense .qubit v q = n.dense .qubit v q) :
    s.placeInBody m v o c = s.placeInBody n v o c := by
  unfold Schedule.placeInBody
  rw [mapM_congr h]

variable (hsize : g.size ≤ 4294967296)
include hsize

lemma placeMeasurement_congr {s : Schedule} {v : Nat} {o : Operation} {qs : List Nat}
    {condition : Option Condition} (hv : v < g.size)
    (h : ∀ b ∈ g.bitsInto v .clbit, m.dense .clbit v b = n.dense .clbit v b) :
    s.placeMeasurement g m v o qs condition = s.placeMeasurement g n v o qs condition := by
  unfold Schedule.placeMeasurement
  rw [incidentBits_ok hsize hv]
  refine bind_congr_ok fun bits hbits => ?_
  obtain rfl := Except.ok.inj hbits
  rw [mapM_congr h]

lemma condition_congr {v : Nat} {o : Operation} (hv : v < g.size)
    (h : ∀ b ∈ g.bitsInto v .conbit, m.dense .clbit v b = n.dense .clbit v b) :
    m.condition g v o = n.condition g v o := by
  unfold Numbering.condition
  rw [incidentBits_ok hsize hv]
  split
  · rfl
  · refine bind_congr_ok fun bits hbits => ?_
    obtain rfl := Except.ok.inj hbits
    rw [mapM_congr h]

lemma inner_congr {c : CallContext} {v : Nat} {o : Operation} (hv : v < g.size)
    (h : ∀ b ∈ g.bitsInto v .conbit, m.dense .clbit v b = n.dense .clbit v b) :
    c.inner g m v o = c.inner g n v o := by
  unfold CallContext.inner
  rw [condition_congr hsize hv h]

lemma expandBody_congr {idle : List String} {c : CallContext} {name : String} {vs : List Nat}
    {s : Schedule} {top : Nat}
    (hcall : ∀ {site name c s}, m.AgreeOn n (g.LooksUpIn name c.qubits) →
      expandCall g m idle site name c s = expandCall g n idle site name c s)
    (h : m.AgreeOn n (g.LooksUpIn name c.qubits)) (hvs : ∀ v ∈ vs, v ∈ g.bodyOf name) :
    expandBody g m idle c vs s top = expandBody g n idle c vs s top := by
  induction vs generalizing s top with
  | nil => rw [expandBody, expandBody]
  | cons v vs ih =>
    have hv := hvs v List.mem_cons_self
    have ih : ∀ {s top}, expandBody g m idle c vs s top = expandBody g n idle c vs s top :=
      ih fun w hw => hvs w (List.mem_cons_of_mem _ hw)
    have hinner : ∀ {vertex o}, g.vertex? v = some vertex →
        c.inner g m v o = c.inner g n v o := fun hvertex =>
      inner_congr hsize (lt_size_of_vertex hvertex) fun b hb => h _ _ _ (.guard hv hb)
    rw [expandBody, expandBody]
    split
    · next o hvertex =>
      rw [hinner hvertex]
      refine bind_congr_ok fun c' hc' => ?_
      have hplace : ∀ q ∈ c'.qubits, m.dense .qubit v q = n.dense .qubit v q := fun q hq =>
        h _ _ _ (.operand hv (Or.inl hvertex) (inner_ok hc').1 hq)
      rw [placeInBody_congr hplace]
      exact bind_congr_ok fun p _ => ih
    · next o hvertex =>
      rw [hinner hvertex]
      refine bind_congr_ok fun c' hc' => ?_
      rw [hcall fun kind w b hb => h _ _ _ (.nested hv hvertex (inner_ok hc').1 hb)]
      exact bind_congr_ok fun p _ => ih
    · exact ih

theorem expandCall_congr {idle : List String} {site : Nat} {name : String} {c : CallContext}
    {s : Schedule} (h : m.AgreeOn n (g.LooksUpIn name c.qubits)) :
    expandCall g m idle site name c s = expandCall g n idle site name c s := by
  induction idle using idle_induct generalizing site name c s with
  | call idle ih =>
    rw [expandCall, expandCall]
    split
    · rfl
    · next root hroot =>
      split
      · next hidle =>
        exact expandBody_congr hsize (ih name hidle) h fun v hv => by rwa [bodyOf_eq hroot]
      · rfl

/-- **Translating depends on a numbering only through the bits that are looked up.** -/
theorem Graph.translate_congr {vs : List Nat} (h : m.AgreeOn n (g.LooksUp vs)) {v : Nat}
    (hmem : v ∈ vs) (hv : v < g.size) (s : Schedule) : g.translate m s v = g.translate n s v := by
  have hguard : ∀ {o}, m.condition g v o = n.condition g v o :=
    condition_congr hsize hv fun b hb => h _ _ _ (.guard hmem hb)
  unfold translate
  refine bind_congr_ok fun vertex hvertex => ?_
  rw [mapError_eq_ok, vertex_ok hsize hv] at hvertex
  cases vertex with
  | op o =>
    have hqubits : ∀ q ∈ o.qubits, m.dense .qubit v q = n.dense .qubit v q := fun q hq =>
      h _ _ _ (.operand hmem (Or.inl hvertex) hq)
    simp only [hguard, mapM_congr hqubits,
      placeMeasurement_congr hsize hv fun b hb => h _ _ _ (.target hmem hb)]
  | caller o =>
    have hexpand : ∀ {idle site params condition}, expandCall g m idle site o.name
        ⟨o.qubits, params, condition⟩ s = expandCall g n idle site o.name
          ⟨o.qubits, params, condition⟩ s :=
      expandCall_congr hsize fun kind w b hb => h _ _ _ (.expanded hmem hvertex hb)
    simp only [hguard, hexpand]
  | _ => rfl

end Agreeing

/-! ### Lookups that fail -/

/-- The error says that a bit has no index, or an index that is too large. -/
def CompileError.OfIndex : CompileError → Prop
  | .outOfRange .. => True
  | .graph (.access _ (.undeclared ..)) | .graph (.access _ (.beyondLive ..)) => True
  | _ => False

section Failing

variable {g : Graph} {n : Numbering} {e : CompileError} (he : e.OfIndex)

lemma Numbering.lt_live_of_mapM {kind : BitKind} {v : Nat} {bits dense : List Nat}
    (h : bits.mapM (n.dense kind v) = .ok dense) : ∀ d ∈ dense, d < n.live kind := by
  intro d hd
  obtain ⟨b, -, hb⟩ := exists_of_mapM h hd
  exact (Numbering.dense_ok.mp hb).2

lemma Numbering.exists_of_condition_error (hsize : g.size ≤ 4294967296) {v : Nat} (hv : v < g.size)
    {o : Operation} (h : n.condition g v o = .error e) :
    ∃ b ∈ g.bitsInto v .conbit, n.dense .clbit v b = .error e := by
  rcases condition_eq_error h with ⟨fault, hbits, -⟩ | ⟨bits, hbits, hfails⟩
  · simp [incidentBits_ok hsize hv] at hbits
  · rw [incidentBits_ok hsize hv] at hbits
    obtain rfl := Except.ok.inj hbits
    exact hfails

include he

/-- Indices that were looked up have a row. -/
lemma not_place_error {s : Schedule} (hrows : s.rows.length = n.liveQubits) {v : Nat}
    {qs dense : List Nat} (hdense : qs.mapM (n.dense .qubit v) = .ok dense) {name : String}
    {params : List Float} {condition : Option Condition} :
    s.place (.named name dense params condition) ≠ .error e := by
  intro h
  rcases Schedule.place_eq_error h with rfl | ⟨q, hq, hle, -⟩
  · exact he
  · have := Numbering.lt_live_of_mapM hdense q hq
    simp only [Numbering.live] at this
    omega

/-- An expansion fails for lack of an index as one of its lookups does. -/
theorem exists_lookup_of_expandCall (hsize : g.size ≤ 4294967296) {idle : List String} {site : Nat}
    {name : String} {c : CallContext} {s : Schedule} (hrows : s.rows.length = n.liveQubits)
    (h : expandCall g n idle site name c s = .error e) :
    ∃ kind w b, g.LooksUpIn name c.qubits kind w b ∧ n.dense kind w b = .error e := by
  induction idle using idle_induct generalizing site name c s with
  | call idle ih =>
    rcases expandCall_eq_error h with ⟨-, rfl⟩ | ⟨root, hroot, ⟨-, rfl⟩ | ⟨hidle, hbody⟩⟩
    · exact False.elim he
    · exact False.elim he
    -- a vertex of the body fails, on a schedule with as many rows
    obtain ⟨v, hv, s', hlen, hfails⟩ := expandBody_eq_error hbody
    rw [← bodyOf_eq hroot] at hv
    have hrows := hlen.trans hrows
    cases hfails with
    | @inner o vertex fails =>
      rcases CallContext.inner_eq_error fails with ⟨fault, -, rfl⟩ | ⟨-, hcondition⟩
      · exact False.elim he
      · have hlt : v < g.size := vertex.elim lt_size_of_vertex lt_size_of_vertex
        obtain ⟨b, hb, hdense⟩ := Numbering.exists_of_condition_error hsize hlt hcondition
        exact ⟨.clbit, v, b, .guard hv hb, hdense⟩
    | @gate o c' vertex inner fails =>
      rcases Schedule.placeInBody_eq_error fails with
        rfl | ⟨q, hq, hdense⟩ | ⟨dense, hdense, hplace⟩
      · exact False.elim he
      · exact ⟨.qubit, v, q, .operand hv (Or.inl vertex) (inner_ok inner).1 hq, hdense⟩
      · exact absurd hplace (not_place_error he hrows hdense)
    | @call o c' vertex inner fails =>
      obtain ⟨kind, w, b, hlookup, hdense⟩ := ih name hidle hrows fails
      exact ⟨kind, w, b, .nested hv vertex (inner_ok inner).1 hlookup, hdense⟩

/-- A measurement fails for lack of an index as the lookup of a target does. -/
lemma exists_target_of_placeMeasurement (hsize : g.size ≤ 4294967296) {v : Nat} (hv : v < g.size)
    {s : Schedule} (hrows : s.rows.length = n.liveQubits) {o : Operation} {qs dense : List Nat}
    (hdense : qs.mapM (n.dense .qubit v) = .ok dense) {condition : Option Condition}
    (h : s.placeMeasurement g n v o dense condition = .error e) :
    ∃ b ∈ g.bitsInto v .clbit, n.dense .clbit v b = .error e := by
  unfold Schedule.placeMeasurement at h
  rw [incidentBits_ok hsize hv] at h
  rcases bind_eq_error.mp h with h | ⟨bits, hbits, h⟩
  · simp [Except.mapError] at h
  obtain rfl := Except.ok.inj hbits
  split at h
  · rcases bind_eq_error.mp h with htargets | ⟨targets, -, hmeasure⟩
    · exact exists_of_mapM_error htargets
    · obtain ⟨⟨q, b⟩, ht, hle, -⟩ := Schedule.measure_eq_error hmeasure
      have := Numbering.lt_live_of_mapM hdense q (List.of_mem_zip ht).1
      simp only [Numbering.live] at this hle
      omega
  · obtain rfl := Except.error.inj h
    exact False.elim he

/-- **A vertex fails for lack of an index as one of its lookups does.** -/
theorem Graph.exists_lookup_of_translate (hsize : g.size ≤ 4294967296) {vs : List Nat} {v : Nat}
    (hmem : v ∈ vs) (hv : v < g.size) {s : Schedule} (hrows : s.rows.length = n.liveQubits)
    (h : g.translate n s v = .error e) :
    ∃ kind w b, g.LooksUp vs kind w b ∧ n.dense kind w b = .error e := by
  obtain ⟨node, hnode⟩ := exists_node hv
  have hvertex : g.vertex? v = some node.vertex := by simp [vertex?, hnode]
  have hguard : ∀ {o}, n.condition g v o = .error e →
      ∃ kind w b, g.LooksUp vs kind w b ∧ n.dense kind w b = .error e := fun hcondition => by
    obtain ⟨b, hb, hdense⟩ := Numbering.exists_of_condition_error hsize hv hcondition
    exact ⟨.clbit, v, b, .guard hmem hb, hdense⟩
  have hparams : ∀ {o}, topParams o ≠ .error e := fun hparams => by
    obtain ⟨fault, -, rfl⟩ := mapError_eq_error.mp hparams
    exact he
  unfold translate at h
  rw [(vertex_ok hsize hv).mpr hvertex] at h
  rcases bind_eq_error.mp h with h | ⟨vertex, hok, h⟩
  · simp [Except.mapError] at h
  obtain rfl := Except.ok.inj hok
  split at h
  · next o ho =>
    rw [ho] at hvertex
    rcases bind_eq_error.mp h with hcondition | ⟨condition, -, h⟩
    · exact hguard hcondition
    rcases bind_eq_error.mp h with hqubits | ⟨dense, hdense, h⟩
    · obtain ⟨q, hq, hfails⟩ := exists_of_mapM_error hqubits
      exact ⟨.qubit, v, q, .operand hmem (Or.inl hvertex) hq, hfails⟩
    split at h
    · rcases bind_eq_error.mp h with h | ⟨placed, -, h⟩
      · obtain ⟨b, hb, hfails⟩ := exists_target_of_placeMeasurement he hsize hv hrows hdense h
        exact ⟨.clbit, v, b, .target hmem hb, hfails⟩
      · simp [pure, Except.pure] at h
    · rcases bind_eq_error.mp h with h | ⟨params, -, h⟩
      · exact absurd h hparams
      rcases bind_eq_error.mp h with h | ⟨placed, -, h⟩
      · exact absurd h (not_place_error he hrows hdense)
      · simp [pure, Except.pure] at h
  · next o ho =>
    rw [ho] at hvertex
    rcases bind_eq_error.mp h with hcondition | ⟨condition, -, h⟩
    · exact hguard hcondition
    rcases bind_eq_error.mp h with h | ⟨params, -, h⟩
    · exact absurd h hparams
    rcases bind_eq_error.mp h with h | ⟨placed, -, h⟩
    · obtain ⟨kind, w, b, hlookup, hfails⟩ := exists_lookup_of_expandCall he hsize hrows h
      exact ⟨kind, w, b, .expanded hmem hvertex hlookup, hfails⟩
    · simp [pure, Except.pure] at h
  · simp [pure, Except.pure] at h

/-- **A list of vertices fails for lack of an index as one of its lookups does.** -/
theorem Graph.exists_lookup_of_compileVertices (hsize : g.size ≤ 4294967296) {vs : List Nat}
    (hvs : ∀ v ∈ vs, v < g.size) (h : g.compileVertices vs = .error e) :
    ∃ kind w b, g.LooksUp vs kind w b ∧ (g.numbering vs).dense kind w b = .error e := by
  unfold compileVertices at h
  rw [(ofVertices_numbering hsize hvs).1] at h
  rcases bind_eq_error.mp h with h | ⟨n, hn, h⟩
  · simp at h
  obtain rfl := Except.ok.inj hn
  rcases bind_eq_error.mp h with hfold | ⟨s, -, hflatten⟩
  · have hlen : (Schedule.empty (g.numbering vs).liveQubits).rows.length =
        (g.numbering vs).liveQubits := by simp [Schedule.empty]
    obtain ⟨v, hv, s, hrows, hfails⟩ := exists_of_foldlM_error (I := fun s : Schedule =>
      s.rows.length = (g.numbering vs).liveQubits) (fun {s s' v} hrows hs => by
        obtain ⟨cs, -, hcs⟩ := translate_ok.mp hs
        exact (Schedule.length_performAll hcs).trans hrows) hlen hfold
    exact exists_lookup_of_translate he hsize hv (hvs v hv) hrows hfails
  · obtain ⟨hit, t, name, rfl⟩ := Schedule.flatten_eq_error hflatten
    exact False.elim he

end Failing

/-! ### What a part declares -/

/-- A condition inside of a body reads a bit that no register of the document declares. -/
def Graph.Unclaimed (g : Graph) (sts : List Document.Statement) (w b : Nat) : Prop :=
  g.rootOf w ≠ none ∧ ∀ r, .register r ∈ sts → r.kind = .clbit → ¬ r.declares b

namespace Graph

lemma LooksUpIn.mem_qubits {g : Graph} {name : String} {qs : List Nat} {kind : BitKind} {w b : Nat}
    (h : g.LooksUpIn name qs kind w b) (hkind : kind = .qubit) : b ∈ qs := by
  induction h with
  | operand mem vertex handed bit => exact mem_of_mapM_slots handed _ bit
  | guard mem bit => simp at hkind
  | nested mem vertex handed lookup ih => exact mem_of_mapM_slots handed _ (ih hkind)

/-- **The search for condition bits finds all that an expansion looks up.** -/
lemma LooksUpIn.mem_bodyConbits {g : Graph} {name : String} {qs : List Nat} {kind : BitKind}
    {w b : Nat} (h : g.LooksUpIn name qs kind w b) (hkind : kind = .clbit) :
    b ∈ g.bodyConbits name ∧ ∃ s, w ∈ g.bodyOf s := by
  obtain ⟨opened, hname, hclosed⟩ := g.bodyConbits_closed name
  generalize g.bodyConbits name = bits at hclosed ⊢
  induction h with
  | operand mem vertex handed bit => simp at hkind
  | guard mem bit => exact ⟨(hclosed _ hname _ mem).1 _ bit, _, mem⟩
  | nested mem vertex handed lookup ih => exact ih hkind ((hclosed _ hname _ mem).2 _ vertex)

lemma rootOf_of_enters {g : Graph} (hout : ∀ e ∈ g.edges, g.rootOf e.target = none →
    g.IsOuter e.source) {r v : Nat} (hr : ¬ g.IsOuter r)
    (hpath : Relation.TransGen g.Enters r v) : g.rootOf v ≠ none := by
  have hstep : ∀ {a b}, g.Enters a b → ¬ g.IsOuter a → g.rootOf b ≠ none := by
    rintro a b ⟨⟨e, he, rfl, rfl⟩, -⟩ hnot hnone
    exact hnot (hout e he hnone)
  induction hpath with
  | single h => exact hstep h hr
  | tail _ h ih =>
    refine hstep h ?_
    rintro ⟨node, hnode, hroot, -⟩
    exact ih (by rw [rootOf, hnode]; exact hroot)

end Graph

section Dense

variable {g : Graph} (hsize : g.size ≤ 4294967296) {vs : List Nat} (hvs : ∀ v ∈ vs, v < g.size)
  {kind : BitKind} {b : Nat}
include hsize hvs

lemma Graph.dense_of_declared (hbal : g.Balanced vs) (hb : b ∈ g.declared vs kind) (w : Nat) :
    ∃ d, (g.numbering vs).dense kind w b = .ok d := by
  obtain ⟨hmap, hlive⟩ := (ofVertices_numbering hsize hvs).2 kind
  obtain ⟨d, hd⟩ := DenseMap.exists_get?_ofList hb
  refine ⟨d, Numbering.dense_ok.mpr ⟨hmap ▸ hd, ?_⟩⟩
  rw [hlive, hbal kind]
  exact (List.getElem?_eq_some_iff.mp (DenseMap.get?_ofList_last.mp hd).1).1

lemma Graph.dense_of_not_declared (hb : b ∉ g.declared vs kind) (w : Nat) :
    (g.numbering vs).dense kind w b = .error (.graph (.access w (.undeclared kind b))) := by
  have hnone : ((g.numbering vs).map kind).get? b = none := by
    rw [((ofVertices_numbering hsize hvs).2 kind).1]
    refine Option.eq_none_iff_forall_ne_some.mpr fun d hd => ?_
    exact hb (List.mem_of_getElem? (DenseMap.get?_ofList_last.mp hd).1)
  simp [Numbering.dense, hnone]

end Dense

section Closed

variable {sts : List Document.Statement} {g : Graph}
  (hbuild : sts.foldlM Document.Statement.apply .empty = .ok g) (hsize : g.size ≤ 4294967296)
include hbuild hsize

/-- What the walk of a body comes to stands in a body. -/
lemma Graph.rootOf_of_mem_bodyOf {s : String} {w : Nat} (h : w ∈ g.bodyOf s) :
    g.rootOf w ≠ none := by
  cases hroot : g.findDefinition? s with
  | none => simp [bodyOf, hroot] at h
  | some root =>
    rw [bodyOf_eq hroot] at h
    obtain ⟨params, qubits, clbits, hvertex⟩ := exists_define_of_findDefinition hroot
    have hcall : (g.vertex? root).any Vertex.isCall = false := by simp [hvertex, Vertex.isCall]
    have hword := Nat.lt_of_lt_of_le (lt_size_of_vertex hvertex) hsize
    have houter : ¬ g.IsOuter root := by
      rintro ⟨node, hnode, -, hnot⟩
      simp only [vertex?, hnode, Option.map_some, Option.some.injEq] at hvertex
      exact hnot _ _ _ _ hvertex
    exact rootOf_of_enters (fun e he hnone => (Document.build_outside hbuild hsize e he hnone).1)
      houter ((mem_bodyFrom_iff hword hcall).mp h)

variable (hbounded : ∀ r ∈ sts.filterMap Document.Statement.register?,
    r.start + r.count < 4294967296)
  {parts : List (List Nat)} (hcomp : Components g parts) {part : List Nat} (hpart : part ∈ parts)
include hbounded hcomp hpart

/-- **A part declares the bits that are looked up in it**, but for those that only a condition
inside of a body reads. -/
theorem Graph.Components.declared_of_looksUp (hloop : g.Loopless)
    (hroot : ∀ v ∈ part, g.rootOf v = none) {kind : BitKind} {w b : Nat}
    (h : g.LooksUp part kind w b) :
    b ∈ g.declared part kind ∨ kind = .clbit ∧ g.Unclaimed sts w b := by
  have hbits : ∀ wire {v b}, v ∈ part → b ∈ g.bitsInto v wire → b ∈ g.declared part wire.kind :=
    fun _ _ _ hv hb => hcomp.mem_declared_of_owned hbuild hsize hbounded hpart hv
      (owned_of_rootOf hbuild hsize (hroot _ hv) hb)
  have hsup := Document.build_supplied hbuild hsize hloop
  cases h with
  | @operand _ _ o mem vertex bit =>
    have hqubits : g.bitsInto w .qubit = o.qubits :=
      vertex.elim (fun hv => hsup.bits hv rfl) fun hv => hsup.bits hv rfl
    exact Or.inl (hbits .qubit mem (hqubits ▸ bit))
  | target mem bit => exact Or.inl (hbits .clbit mem bit)
  | guard mem bit => exact Or.inl (hbits .conbit mem bit)
  | @expanded v _ _ o _ mem vertex lookup =>
    cases kind with
    | qubit =>
      have hmem : b ∈ g.bitsInto v .qubit := hsup.bits vertex rfl ▸ lookup.mem_qubits rfl
      exact Or.inl (hbits .qubit mem hmem)
    | clbit =>
      -- no edge leads here; the call is linked to a register of the bit, if there is one
      obtain ⟨hread, s, hs⟩ := lookup.mem_bodyConbits rfl
      by_cases hdecl : ∃ r, .register r ∈ sts ∧ r.kind = .clbit ∧ r.declares b
      · obtain ⟨r, hr, hkind, hd⟩ := hdecl
        obtain ⟨reg, hreg⟩ := Document.exists_register_vertex hbuild hsize hr
        exact Or.inl (hcomp.mem_declared_of_bodyConbits hpart mem vertex hread hreg hkind hd)
      · exact Or.inr ⟨rfl, rootOf_of_mem_bodyOf hbuild hsize hs,
          fun r hr hkind hd => hdecl ⟨r, hr, hkind, hd⟩⟩

/-- Only what no register declares has no index. -/
lemma Graph.Components.unclaimed_of_dense_error {kind : BitKind} {w b : Nat} {e : CompileError}
    (hb : b ∈ g.declared part kind ∨ kind = .clbit ∧ g.Unclaimed sts w b)
    (h : (g.numbering part).dense kind w b = .error e) :
    kind = .clbit ∧ g.Unclaimed sts w b ∧ e = .graph (.access w (.undeclared .clbit b)) := by
  have hvs : ∀ v ∈ part, v < g.size := fun v hv => hcomp.lt_size hpart hv
  rcases hb with hb | ⟨rfl, hunclaimed⟩
  · have hbal := (hcomp.aligned hbuild hsize hbounded hpart).balanced
    obtain ⟨d, hd⟩ := dense_of_declared hsize hvs hbal hb w
    simp [hd] at h
  · have hnot : b ∉ g.declared part .clbit := by
      intro hmem
      obtain ⟨reg, -, r, hr, hkind, hd⟩ := mem_declared.mp hmem
      have hmem := Document.mem_registers.mp (Document.build_registers hbuild hsize hr)
      exact hunclaimed.2 r hmem hkind hd
    rw [dense_of_not_declared hsize hvs hnot] at h
    exact ⟨rfl, hunclaimed, (Except.error.inj h).symm⟩

end Closed

/-- **Parts are closed under the bits that they look up.** Where no part holds a vertex of a body,
the registers of a part declare every bit that is looked up while the part is translated, but for
those that a condition inside of a body reads and no register declares. Translating the part depends
on no other bits, and the only index that can be missing is that of such a bit. -/
theorem components_lookups {d : Document} {g : Graph} (hbuild : d.build = .ok g)
    (hsize : g.size ≤ 4294967296)
    (hbounded : ∀ r, .register r ∈ d.statements → r.start + r.count < 4294967296)
    (hbodies : g.BodiesApart) {parts : List (List Nat)} (hparts : g.components = .ok parts)
    {part : List Nat} (hpart : part ∈ parts) :
    (∀ kind w b, g.LooksUp part kind w b →
      b ∈ g.declared part kind ∨ kind = .clbit ∧ g.Unclaimed d.statements w b) ∧
    (∀ m n : Numbering, m.AgreeOn n (g.LooksUp part) →
      ∀ s, part.foldlM (g.translate m) s = part.foldlM (g.translate n) s) ∧
    ∀ e, g.compileVertices part = .error e → e.OfIndex →
      ∃ w b, e = .graph (.access w (.undeclared .clbit b)) ∧ g.LooksUp part .clbit w b ∧
        g.Unclaimed d.statements w b := by
  obtain ⟨hloop, rfl⟩ := (components_ok (Document.build_wired hbuild hsize)).mp hparts
  have hcomp := decompose_components (Document.build_wired hbuild hsize)
  have hbounded : ∀ r ∈ d.statements.filterMap Document.Statement.register?,
      r.start + r.count < 4294967296 := fun r hr => hbounded r (Document.mem_registers.mp hr)
  have hvs : ∀ v ∈ part, v < g.size := fun v hv => hcomp.lt_size hpart hv
  have hclosed : ∀ kind w b, g.LooksUp part kind w b →
      b ∈ g.declared part kind ∨ kind = .clbit ∧ g.Unclaimed d.statements w b := fun kind w b =>
    hcomp.declared_of_looksUp hbuild hsize hbounded hpart hloop (hbodies _ hparts part hpart)
  refine ⟨hclosed, fun m n h s => ?_, fun e h he => ?_⟩
  · exact foldlM_congr (fun v hv s => translate_congr hsize h hv (hvs v hv) s) s
  · obtain ⟨kind, w, b, hlookup, hdense⟩ := exists_lookup_of_compileVertices he hsize hvs h
    obtain ⟨rfl, hunclaimed, rfl⟩ := hcomp.unclaimed_of_dense_error hbuild hsize hbounded hpart
      (hclosed _ _ _ hlookup) hdense
    exact ⟨w, b, rfl, hlookup, hunclaimed⟩

/-! ### A register that comes last -/

/-- The body of a call reads two classical bits. The register of one of them comes after the call,
and the other one has none. -/
def Document.lateRegister : Document where
  statements := [.register ⟨.qubit, 0, 1⟩, .define ⟨"reset", 0, 1, 0⟩,
    .callee ⟨"X", [], [0], [], [], false, some ⟨[0, 5], "==", 1⟩⟩,
    .caller ⟨"reset", [], [0], [], none⟩, .register ⟨.clbit, 0, 1⟩]

/-- The late register is in the part of the call, and the other bit is missing. -/
theorem lateRegister_lookups : ∃ g, Document.lateRegister.build = .ok g ∧
    g.components = .ok [[0, 1, 4, 5, 6]] ∧ 0 ∈ g.declared [0, 1, 4, 5, 6] .clbit ∧
    g.compileVertices [0, 1, 4, 5, 6] = .error (.graph (.access 3 (.undeclared .clbit 5))) ∧
    g.LooksUp [0, 1, 4, 5, 6] .clbit 3 5 ∧ g.Unclaimed Document.lateRegister.statements 3 5 := by
  obtain ⟨g, hbuild⟩ : ∃ g, Document.lateRegister.build = .ok g := ⟨_, rfl⟩
  have hsize : g.size ≤ 4294967296 := by
    obtain rfl := Except.ok.inj hbuild
    decide
  have hparts : g.components = .ok [[0, 1, 4, 5, 6]] := by
    obtain rfl := Except.ok.inj hbuild
    cbv
  have hbodies : g.BodiesApart := by
    intro parts h
    obtain rfl := Except.ok.inj (hparts.symm.trans h)
    obtain rfl := Except.ok.inj hbuild
    decide
  have hbounded : ∀ r ∈ Document.lateRegister.statements.filterMap Document.Statement.register?,
      r.start + r.count < 4294967296 := by decide
  have herror : g.compileVertices [0, 1, 4, 5, 6] =
      .error (.graph (.access 3 (.undeclared .clbit 5))) := by
    obtain rfl := Except.ok.inj hbuild
    cbv
  have hdeclared : 0 ∈ g.declared [0, 1, 4, 5, 6] .clbit := by
    obtain rfl := Except.ok.inj hbuild
    decide
  obtain ⟨-, -, hfails⟩ := components_lookups hbuild hsize
    (fun r hr => hbounded r (Document.mem_registers.mpr hr)) hbodies hparts
    (List.mem_singleton.mpr rfl)
  obtain ⟨w, b, he, hlookup, hunclaimed⟩ := hfails _ herror trivial
  obtain ⟨rfl, rfl⟩ : 3 = w ∧ 5 = b := by simpa using he
  exact ⟨g, hbuild, hparts, hdeclared, herror, hlookup, hunclaimed⟩

end QCircuit
