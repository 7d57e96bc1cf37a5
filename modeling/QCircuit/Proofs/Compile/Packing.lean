import QCircuit.Proofs.Compile.Concatenation

/-!
The qubits that gates are compiled to, against those they are wired to.

The wiring of a gate says which initial vertex its qubit comes from; its dense index says which place
the qubit has in the circuit. The index is that of the last register of the list that declares the
bit, whichever register the gate was wired to. The two agree unless a later register declares the bit
once more, and then the gate has moved to another qubit.
-/

namespace QCircuit

open QCircuit.Graph

namespace Graph

/-- The place of an initial qubit among those of a list. -/
def qubitPlace (g : Graph) (vs : List Nat) (u : Nat) : Option Nat :=
  (g.inits vs .qubit).idxOf? u

lemma qubitPlace_eq_some {g : Graph} {vs : List Nat} (hnd : vs.Nodup) {u i : Nat} :
    g.qubitPlace vs u = some i ↔ (g.inits vs .qubit)[i]? = some u :=
  idxOf?_eq_some_of_nodup (hnd.filter _)

section Aligned

variable {g : Graph} (hg : Traced g) {vs : List Nat} (haligned : g.Aligned vs)
include hg haligned

/-- Where an initial vertex of a bit stands, there the bit is declared. -/
lemma Aligned.declared_at {kind : BitKind} {u b i : Nat} (hu : g.IsInitOf kind u b)
    (hi : (g.inits vs kind)[i]? = some u) : (g.declared vs kind)[i]? = some b := by
  obtain ⟨b', hb', hu'⟩ := getElem?_of_forall₂ (haligned kind) hi
  rw [hb', hu'.bit_unique hg hu]

/-- **The dense index of a bit is the place of its last initial vertex.** -/
theorem Aligned.dense {n : Numbering} {kind : BitKind}
    (hmap : n.map kind = .ofList (g.declared vs kind)) (hlive : n.live kind = g.live vs kind)
    {u b i : Nat} (hu : g.IsInitOf kind u b) (hi : (g.inits vs kind)[i]? = some u) (v : Nat) :
    ∃ k, n.dense kind v b = .ok k ∧
      (k = i ↔ ∀ w j, g.IsInitOf kind w b → (g.inits vs kind)[j]? = some w → j ≤ i) := by
  have hbi := haligned.declared_at hg hu hi
  -- the last place with the bit
  obtain ⟨k, hk⟩ := DenseMap.exists_get?_ofList (List.mem_of_getElem? hbi)
  obtain ⟨hkb, hlast⟩ := DenseMap.get?_ofList_last.mp hk
  have hlt : k < n.live kind := by
    rw [hlive, haligned.balanced kind]
    exact (List.getElem?_eq_some_iff.mp hkb).1
  have hle : i ≤ k := Nat.le_of_not_lt fun hc => hlast i hc hbi
  refine ⟨k, Numbering.dense_ok.mpr ⟨by rw [hmap, hk], hlt⟩, ?_, fun hmax => ?_⟩
  · rintro rfl w j hw hj
    exact Nat.le_of_not_lt fun hc => hlast j hc (haligned.declared_at hg hw hj)
  · obtain ⟨w, hw, hinit⟩ := getElem?_of_forall₂ (haligned kind).flip hkb
    have := hmax w k hinit hw
    omega

end Aligned

end Graph

/-- **When a gate is compiled to the qubit that it is wired to.** Following the edges of a qubit
backwards from a gate ends at one initial vertex, which stands in the same list. The dense index of
the qubit is the place of this vertex if and only if no initial vertex of the same bit has a later
place in the list. -/
theorem dense_eq_place_iff {d : Document} {g : Graph} (hbuild : d.build = .ok g)
    (hsize : g.size ≤ 4294967296)
    (hbounded : ∀ r ∈ d.statements.filterMap Document.Statement.register?,
      r.start + r.count < 4294967296)
    {parts : List (List Nat)} (hparts : g.components = .ok parts) {vs : List Nat}
    (hvs : vs ∈ parts ∨ vs = parts.flatten) {v : Nat} {o : Operation} (hv : v ∈ vs)
    (hop : g.vertex? v = some (.op o)) {b : Nat} (hb : b ∈ o.qubits) :
    ∃ u n i k, (∀ w, g.EndsAt b v w ↔ w = u) ∧ g.vertex? u = some .initQubit ∧
      g.qubitPlace vs u = some i ∧ Numbering.ofVertices g vs = .ok n ∧
        n.dense .qubit v b = .ok k ∧
          (k = i ↔ ∀ w j, g.IsInitOf .qubit w b → g.qubitPlace vs w = some j → j ≤ i) := by
  have hwired := Document.build_wired hbuild hsize
  have hg := Document.build_traced hbuild hsize
  obtain ⟨hloop, hdecompose⟩ := (components_ok hwired).mp hparts
  have hcomp : Components g parts := hdecompose ▸ decompose_components hwired
  obtain ⟨u, hu, hpath, hends⟩ := Document.build_endsAt hbuild hsize hloop hop hb
  have haligned : ∀ part ∈ parts, g.Aligned part :=
    fun part hpart => hcomp.aligned hbuild hsize hbounded hpart
  -- both kinds of lists have each vertex once, and the end of the way back with the gate
  obtain ⟨hnd, hlt, hal, hmem⟩ : vs.Nodup ∧ (∀ w ∈ vs, w < g.size) ∧ g.Aligned vs ∧ u ∈ vs := by
    rcases hvs with hpart | rfl
    · exact ⟨(hcomp.ascending vs hpart).nodup, fun w hw => hcomp.lt_size hpart hw,
        haligned vs hpart, (hcomp.mem_iff_of_path hpart hpath).mp hv⟩
    · obtain ⟨part, hpart, hvp⟩ := List.mem_flatten.mp hv
      exact ⟨hcomp.flatten_nodup, fun w hw => hcomp.lt_size_of_mem_flatten hw,
        .flatten haligned,
        List.mem_flatten.mpr ⟨part, hpart, (hcomp.mem_iff_of_path hpart hpath).mp hvp⟩⟩
  have hinit : u ∈ g.inits vs .qubit :=
    List.mem_filter.mpr ⟨hmem, by simp [hu.vertex hg, Vertex.init, Vertex.isInit]⟩
  obtain ⟨i, hi⟩ := List.mem_iff_getElem?.mp hinit
  obtain ⟨n, hn, hkind⟩ := Numbering.ofVertices_ok hsize hlt
  obtain ⟨k, hk, hiff⟩ := hal.dense hg (hkind .qubit).1 (hkind .qubit).2 hu hi v
  refine ⟨u, n, i, k, hends, hu.vertex hg, (qubitPlace_eq_some hnd).mpr hi, hn, hk, ?_⟩
  simp only [qubitPlace_eq_some hnd]
  exact hiff

/-! ### A qubit that is declared twice -/

/-- A gate behind two registers that declare the same qubit. -/
def Document.declaredTwice : Document where
  statements := [.register ⟨.qubit, 0, 1⟩, .register ⟨.qubit, 0, 1⟩, .op ⟨"X", [], [0], [], none⟩]

def Graph.declaredTwice : Graph := Document.declaredTwice.build.toOption.getD .empty

/-- The gate is wired to the second register and compiled to it. -/
theorem declaredTwice_place :
    Document.declaredTwice.build = .ok Graph.declaredTwice ∧
      Graph.declaredTwice.components = .ok [[0, 1], [2, 3, 4]] ∧
      ∃ n, Numbering.ofVertices Graph.declaredTwice [0, 1, 2, 3, 4] = .ok n ∧
        ∃ u i, (∀ w, Graph.declaredTwice.EndsAt 0 4 w ↔ w = u) ∧
          Graph.declaredTwice.qubitPlace [0, 1, 2, 3, 4] u = some i ∧
            n.dense .qubit 4 0 = .ok i := by
  have hbuild : Document.declaredTwice.build = .ok Graph.declaredTwice := by cbv
  have hparts : Graph.declaredTwice.components = .ok [[0, 1], [2, 3, 4]] := by cbv
  have hedges : Graph.declaredTwice.edges =
      #[⟨0, 1, none⟩, ⟨2, 3, none⟩, ⟨3, 4, some (.qubit, 0)⟩] := by cbv
  have hinits : Graph.declaredTwice.inits [0, 1, 2, 3, 4] .qubit = [1, 3] := by cbv
  have hvs : [0, 1, 2, 3, 4] ∈ [[0, 1], [2, 3, 4]] ∨
      [0, 1, 2, 3, 4] = [[0, 1], [2, 3, 4]].flatten := Or.inr rfl
  have hv : 4 ∈ [0, 1, 2, 3, 4] := by decide
  have hop : Graph.declaredTwice.vertex? 4 = some (.op ⟨"X", [0], [], [], none⟩) := by cbv
  obtain ⟨u, n, i, k, hends, -, hi, hn, hk, hiff⟩ :=
    dense_eq_place_iff hbuild (by cbv) (by decide) hparts hvs hv hop List.mem_cons_self
  have h3 : Graph.declaredTwice.EndsAt 0 4 3 :=
    ⟨.single (by simp [Behind, hedges]), fun w hw => by simp [Behind, hedges] at hw⟩
  obtain rfl := (hends 3).mp h3
  have hlast : k = i := by
    refine hiff.mpr fun w j _ hj => ?_
    rw [qubitPlace, hinits] at hi hj
    obtain rfl : 1 = i := Option.some.inj hi
    obtain ⟨hlt, -⟩ := List.idxOf?_eq_some_iff.mp hj
    exact Nat.le_of_lt_succ hlt
  exact ⟨hbuild, hparts, n, hn, 3, i, hends, hi, hlast ▸ hk⟩

/-- A gate between two registers that declare the same qubit. -/
def Document.redeclared : Document where
  statements := [.register ⟨.qubit, 0, 1⟩, .op ⟨"X", [], [0], [], none⟩, .register ⟨.qubit, 0, 1⟩]

def Graph.redeclared : Graph := Document.redeclared.build.toOption.getD .empty

/-- The gate is wired to the first register and compiled to the second one, which is in another
part. -/
theorem redeclared_moves :
    Document.redeclared.build = .ok Graph.redeclared ∧
      Graph.redeclared.components = .ok [[0, 1, 2], [3, 4]] ∧
      (∀ w, Graph.redeclared.EndsAt 0 2 w ↔ w = 1) ∧
      Graph.redeclared.qubitPlace [0, 1, 2, 3, 4] 1 = some 0 ∧
      ∃ n, Numbering.ofVertices Graph.redeclared [0, 1, 2, 3, 4] = .ok n ∧
        n.dense .qubit 2 0 = .ok 1 := by
  have hedges : Graph.redeclared.edges =
      #[⟨0, 1, none⟩, ⟨1, 2, some (.qubit, 0)⟩, ⟨3, 4, none⟩] := by cbv
  have hone : Relator.RightUnique (Graph.redeclared.Behind 0) := by
    intro v u w hu hw
    simp only [Behind, hedges] at hu hw
    simp at hu hw
    omega
  have h1 : Graph.redeclared.EndsAt 0 2 1 :=
    ⟨.single (by simp [Behind, hedges]), fun w hw => by simp [Behind, hedges] at hw⟩
  refine ⟨by cbv, by cbv, fun w => ⟨fun hw => h1.unique hone hw, fun hw => hw ▸ h1⟩, by cbv,
    ⟨⟨[(0, 1), (0, 0)], 2⟩, ⟨[], 0⟩, 2, 0⟩, by cbv, by cbv⟩

end QCircuit
