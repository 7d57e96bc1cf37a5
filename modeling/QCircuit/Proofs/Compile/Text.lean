import QCircuit.Proofs.Compile.Gates
import QCircuit.Proofs.Graph.Atomicity
import QCircuit.Proofs.Graph.Parts
import QCircuit.Proofs.Json.Circuits
import QCircuit.Proofs.Number.Range

/-!
Compiled circuits are read back from their text.

Every number in a compiled circuit comes from the graph or counts vertices of it, so it fits its
word if those of the graph do; kinds are those of names; and degrees are finite unless they are not
a number. What is left to ask of a circuit is how its angles are read.
-/

namespace QCircuit

/-- The ids of the vertices and the constants of the conditions are in the range of their words. -/
structure Graph.Fits (g : Graph) : Prop where
  size : g.size ≤ 4294967296
  constant : ∀ vertex ∈ g.vertices, ∀ o ∈ vertex.operation?, ∀ p ∈ o.comparison,
    -9223372036854775808 ≤ p.2 ∧ p.2 < 9223372036854775808

lemma Graph.mem_vertices {g : Graph} {v : Nat} {vertex : Vertex} (h : g.vertex? v = some vertex) :
    vertex ∈ g.vertices := by
  obtain ⟨node, hnode, rfl⟩ := Option.map_eq_some_iff.mp h
  exact List.mem_map_of_mem (Array.mem_toList_iff.mpr (Array.mem_of_getElem? hnode))

namespace Numbering

variable {g : Graph} {n : Numbering} {x : Gate}

/-- No more bits are live than there are vertices. -/
lemma live_le_size (hsize : g.size ≤ 4294967296) {vs : List Nat} (hnd : vs.Nodup)
    (hvs : ∀ v ∈ vs, v < g.size) (hn : ofVertices g vs = .ok n) (kind : BitKind) :
    n.live kind ≤ g.size := by
  obtain ⟨n', hn', hkind⟩ := ofVertices_ok hsize hvs
  obtain rfl : n' = n := Except.ok.inj (hn'.symm.trans hn)
  have hsub : vs ⊆ List.range g.size := fun v hv => List.mem_range.mpr (hvs v hv)
  calc n'.live kind = g.live vs kind := (hkind kind).2
    _ ≤ vs.length := List.countP_le_length
    _ ≤ (List.range g.size).length := (hnd.subperm hsub).length_le
    _ = g.size := List.length_range

lemma Conditions.fits (hg : g.Fits) (hlive : n.liveClbits ≤ 4294967296)
    {condition : Option Condition} (h : n.Conditions g condition) :
    ∀ c ∈ condition, c.Fits := by
  intro c hc
  obtain ⟨w, vertex, o, hvertex, ho, hcomparison⟩ := h.exists_comparison c hc
  obtain ⟨hlow, hhigh⟩ := hg.constant _ (Graph.mem_vertices hvertex) o ho _ hcomparison
  exact ⟨fun b hb => Nat.lt_of_lt_of_le (h.below c hc b hb) hlive, hlow, hhigh⟩

lemma Asks.fits (hg : g.Fits) (hqubits : n.liveQubits ≤ 4294967296)
    (hclbits : n.liveClbits ≤ 4294967296) (h : n.Asks g x) : x.Fits := by
  have hlt := fun q hq => Nat.lt_of_lt_of_le (h.qubits_lt q hq) hqubits
  cases h with
  | named params hm hlive hunder =>
    exact ⟨Gate.Kind.ofName_name_ofName _, hlt, by simp [Gate.named], hunder.fits hg hclbits⟩
  | measure hlive htarget hunder =>
    refine ⟨rfl, hlt, ?_, hunder.fits hg hclbits⟩
    rintro b ⟨⟩
    exact Nat.lt_of_lt_of_le htarget hclbits

/-- An angle is in degrees. -/
lemma Asks.exists_toDegrees (h : n.Asks g x) : ∀ a ∈ x.angle, ∃ r, a = Angle.toDegrees r := by
  cases h with
  | @named name qubits params condition hm hlive hunder =>
    intro a ha
    change (if qubits.length = 1 then params.head?.map Angle.toDegrees else none) = some a at ha
    split at ha
    · obtain ⟨r, -, rfl⟩ := Option.map_eq_some_iff.mp ha
      exact ⟨r, rfl⟩
    · simp at ha
  | measure hlive htarget hunder => simp [Gate.measure]

end Numbering

namespace Graph

variable {g : Graph} {c : Circuit}

lemma fits_identity {q : Nat} (hq : q < 4294967296) : (Gate.identity q).Fits :=
  ⟨rfl, by simpa [Gate.identity] using hq, by simp [Gate.identity], by simp [Gate.identity]⟩

/-- **The numbers of a compiled circuit fit**, and its angles are finite if they are numbers. -/
theorem compile_fits (hg : g.Fits) (h : g.compile = .ok c) : c.Fits ∧
    ∀ x ∈ c.gates, ∀ a ∈ x.angle, a.isNaN = false → a.isFinite := by
  obtain ⟨parts, hparts, h⟩ := bind_eq_ok.mp h
  obtain ⟨hnd, hlt⟩ := flatten_of_components hparts
  obtain ⟨n, hn, ⟨hqubits, hclbits⟩, hgates⟩ := compileVertices_asks h
  have hq : n.liveQubits ≤ 4294967296 :=
    (Numbering.live_le_size hg.size hnd hlt hn .qubit).trans hg.size
  have hc : n.liveClbits ≤ 4294967296 :=
    (Numbering.live_le_size hg.size hnd hlt hn .clbit).trans hg.size
  refine ⟨⟨fun x hx => ?_, by omega, by omega⟩, fun x hx a ha hnan => ?_⟩
  · rcases hgates x hx with ⟨q, hlive, rfl⟩ | hasks
    · exact fits_identity (Nat.lt_of_lt_of_le hlive hq)
    · exact hasks.fits hg hq hc
  · rcases hgates x hx with ⟨q, -, rfl⟩ | hasks
    · simp [Gate.identity] at ha
    · obtain ⟨r, rfl⟩ := hasks.exists_toDegrees a ha
      by_contra hinfinite
      have hr : ¬ r.isFinite := mt Angle.isFinite_toDegrees hinfinite
      exact Bool.eq_false_iff.mp hnan (Angle.isNaN_toDegrees hr)

/-- **Compiled circuits survive their text.** When no angle of a compiled circuit is not a number,
and the literal of each is read as the double nearest to it, the circuit is read back as it was
written. -/
theorem parse_text_of_compile (hg : g.Fits) (h : g.compile = .ok c)
    (hnan : ∀ x ∈ c.gates, ∀ a ∈ x.angle, a.isNaN = false)
    (hreads : ∀ x ∈ c.gates, ∀ a ∈ x.angle, Json.Numeral.ReadsNearest a) :
    Circuit.parse? c.text = some c := by
  obtain ⟨hfits, hfinite⟩ := compile_fits hg h
  exact (Circuit.parse?_text_iff hfits).mpr fun x hx a ha =>
    ⟨hfinite x hx a ha (hnan x hx a ha), hreads x hx a ha⟩

/-- A rotation under a condition, and then a gate with a name of its own. -/
def turn (x : Float) : Graph where
  nodes := #[⟨.register ⟨.qubit, 0, 1⟩, none⟩, ⟨.initQubit, none⟩,
    ⟨.register ⟨.clbit, 0, 1⟩, none⟩, ⟨.initClbit, none⟩,
    ⟨.op ⟨"Rx", [0], [.const x], [], some (.ne, -1)⟩, none⟩,
    ⟨.op ⟨"a \"gate\"", [0], [], [], none⟩, none⟩]
  edges := #[⟨0, 1, none⟩, ⟨2, 3, none⟩, ⟨1, 4, some (.qubit, 0)⟩, ⟨3, 4, some (.conbit, 0)⟩,
    ⟨4, 5, some (.qubit, 0)⟩]

lemma turn_fits (x : Float) : (turn x).Fits where
  size := by
    change 6 ≤ 4294967296
    decide
  constant := by simp [vertices, turn, Vertex.operation?]

lemma compile_turn (x : Float) : (turn x).compile = .ok ⟨
    [[.named "Rx" [0] [x] (some ⟨[0], .ne, -1⟩)], [.named "a \"gate\"" [0] [] none]], 1, 1⟩ := by
  obtain ⟨rx, hrx⟩ : ∃ rx, rx = Gate.named "Rx" [0] [x] (some ⟨[0], .ne, -1⟩) := ⟨_, rfl⟩
  obtain ⟨own, hown⟩ : ∃ own, own = Gate.named "a \"gate\"" [0] [] none := ⟨_, rfl⟩
  have hparts : (turn x).components = .ok [[0, 1, 2, 3, 4, 5]] := by cbv
  have hn : Numbering.ofVertices (turn x) [0, 1, 2, 3, 4, 5] =
      .ok ⟨⟨[(0, 0)], 1⟩, ⟨[(0, 0)], 1⟩, 1, 1⟩ := rfl
  have htrace : [0, 1, 2, 3, 4, 5].mapM ((turn x).trace ⟨⟨[(0, 0)], 1⟩, ⟨[(0, 0)], 1⟩, 1, 1⟩) =
      .ok [[], [], [], [], [.unitary rx], [.unitary own]] := by
    rw [hrx, hown]
    rfl
  have hs : (Schedule.empty 1).performAll [.unitary rx, .unitary own] =
      .ok ⟨[[.gate rx, .gate own]]⟩ := by
    rw [hrx, hown]
    rfl
  have hc : Schedule.flatten ⟨[[.gate rx, .gate own]]⟩ 1 = .ok ⟨[[rx], [own]], 1, 1⟩ := by
    rw [hrx, hown]
    rfl
  have hvertices : (turn x).compileVertices [0, 1, 2, 3, 4, 5] = .ok ⟨[[rx], [own]], 1, 1⟩ :=
    compileVertices_ok.mpr ⟨_, _, _, hn, htrace, hs, hc⟩
  rw [← hrx, ← hown]
  exact bind_eq_ok.mpr ⟨_, hparts, hvertices⟩

lemma readsNearest_half_turn : Json.Numeral.ReadsNearest 180.0 := by
  have hx : Json.Numeral.ofFloat? 180.0 = some (.dec false ⟨1800, -1⟩) := by decide
  rw [Json.Numeral.readsNearest_iff hx, Json.Numeral.toFloat?, Decimal.quick?, Decimal.scale]
  decide

theorem parse_text_turn :
    ∃ c, (turn pi).compile = .ok c ∧ c.gates.map (·.angle) = [some 180.0, none] ∧
      Circuit.parse? c.text = some c := by
  have hpi : Angle.toDegrees pi = 180.0 := by decide
  have hrx : (Gate.named "Rx" [0] [pi] (some ⟨[0], .ne, -1⟩)).angle = some 180.0 := by
    rw [← hpi]
    rfl
  have hown : (Gate.named "a \"gate\"" [0] [] none).angle = none := rfl
  have hangle : ∀ x ∈ [Gate.named "Rx" [0] [pi] (some ⟨[0], .ne, -1⟩),
      .named "a \"gate\"" [0] [] none], ∀ a ∈ x.angle, a = 180.0 := by
    simp [hrx, hown]
  refine ⟨_, compile_turn pi, by simp [Circuit.gates, hrx, hown],
    parse_text_of_compile (turn_fits pi) (compile_turn pi) ?_ ?_⟩
  · intro x hx a ha
    rw [hangle x hx a ha]
    decide
  · intro x hx a ha
    rw [hangle x hx a ha]
    exact readsNearest_half_turn

end Graph

end QCircuit
