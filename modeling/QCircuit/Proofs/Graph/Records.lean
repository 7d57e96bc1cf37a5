import QCircuit.Proofs.Graph.Statements

/-!
What the vertex of a statement keeps.

The bits that a gate or a call lists are not stored with it: they are read off the edges that lead to
its vertex, among which are loops, edges side by side and edges from the root of a definition. All of
them are added with the statement, and nothing that follows adds another one, so the lists come back
as they were written.
-/

namespace QCircuit

open QCircuit.Graph

namespace Document

/-- What a gate or a call lists. -/
structure Listing where
  qubits : List Nat
  clbits : List Nat
  condition : Option Guard

def Statement.listing? : Statement → Option Listing
  | .op i | .caller i => some ⟨i.qubits, i.clbits, i.condition⟩
  | .callee p => some ⟨p.qubits, p.clbits, p.condition⟩
  | .register _ | .define _ => none

lemma apply_listing {g g' : Graph} {st : Statement} {l : Listing} (hsize : g'.size ≤ 4294967296)
    (hst : st.apply g = .ok g') (hl : st.listing? = some l) :
    ∃ x, st.site? = some x ∧ (∀ b ∈ x.links (x.root g), g.knows b.1) ∧ g' = x.addTo g := by
  rcases apply_cases hsize hst with ⟨r, rfl, -⟩ | ⟨d, rfl, -⟩ | h
  · simp [Statement.listing?] at hl
  · simp [Statement.listing?] at hl
  · exact h

end Document

open Document

/-- A site has what a statement lists. -/
structure Site.Has (x : Site) (l : Listing) : Prop where
  qubits : x.qubits = l.qubits
  clbits : x.clbits = l.clbits
  conbits : x.conbits = guardBits l.condition
  comparison : ∃ o, x.vertex.operation? = some o ∧ comparison? l.condition = some o.comparison

lemma Document.site?_has {st : Statement} {x : Site} {l : Listing} (hx : st.site? = some x)
    (hl : st.listing? = some l) : x.Has l := by
  cases st with
  | register r => simp [Statement.site?] at hx
  | define d => simp [Statement.site?] at hx
  | callee p =>
    obtain rfl := Option.some.inj hl
    obtain ⟨o, ho, rfl⟩ := Option.map_eq_some_iff.mp hx
    simp only [Part.operation?, Option.bind_eq_bind, Option.bind_eq_some_iff, Option.pure_def,
      Option.some.injEq] at ho
    obtain ⟨params, -, cmp, hcmp, rfl⟩ := ho
    refine ⟨rfl, rfl, rfl, ?_⟩
    cases p.caller <;> exact ⟨_, rfl, hcmp⟩
  | _ =>
    obtain rfl := Option.some.inj hl
    obtain ⟨o, ho, rfl⟩ := Option.map_eq_some_iff.mp hx
    obtain ⟨cmp, hcmp, rfl⟩ := Option.map_eq_some_iff.mp ho
    exact ⟨rfl, rfl, rfl, _, rfl, hcmp⟩

/-- A vertex brings in the bits that are listed, in order and as often, and has the comparison. -/
structure Graph.Records (g : Graph) (v : Nat) (l : Listing) : Prop where
  qubits : g.incidentBits v .qubit = .ok l.qubits
  clbits : g.incidentBits v .clbit = .ok l.clbits
  conbits : g.incidentBits v .conbit = .ok (guardBits l.condition)
  comparison : ∃ vertex o, g.vertex v = .ok vertex ∧ vertex.operation? = some o ∧
    comparison? l.condition = some o.comparison

lemma Renders.records {g : Graph} {v : Nat} {x : Site} {l : Listing} (h : Renders g v x)
    (hsize : g.size ≤ 4294967296) (hl : x.Has l) : g.Records v l := by
  have hv := h.lt_size
  obtain ⟨o, ho, hcmp⟩ := hl.comparison
  refine ⟨?_, ?_, ?_, _, o, (vertex_ok hsize hv).mpr h.vertex, ho, hcmp⟩
  · rw [incidentBits_ok hsize hv, h.qubits, hl.qubits]
  · rw [incidentBits_ok hsize hv, h.clbits, hl.clbits]
  · rw [incidentBits_ok hsize hv, h.conbits, hl.conbits]

namespace Document

/-- **What a statement lists is recorded on its vertex**, and stays there. The vertex of a gate or a
call is the one that the statements before it leave free. After the statement, after each one that
follows and at the end, its bits on every wire and its comparison are those that were listed. -/
theorem build_records {d : Document} {g : Graph} (hbuild : d.build = .ok g)
    (hsize : g.size ≤ 4294967296) {pre post : List Statement} {st : Statement}
    (hdoc : d.statements = pre ++ st :: post) {l : Listing} (hl : st.listing? = some l) :
    ∃ g₀, build ⟨pre⟩ = .ok g₀ ∧ g.Records g₀.size l ∧
      ∀ mid rest, post = mid ++ rest →
        ∃ g', build ⟨pre ++ st :: mid⟩ = .ok g' ∧ g'.Records g₀.size l := by
  rw [build, hdoc] at hbuild
  obtain ⟨g₀, g₁, hpre, hst, hpost⟩ := build_split hbuild
  have hsize₁ := Nat.le_trans (build_extends hpost hsize).size_le hsize
  have hg₀ := build_wired hpre (Nat.le_trans (apply_extends hsize₁ hst).size_le hsize₁)
  obtain ⟨x, hx, hknown, rfl⟩ := apply_listing hsize₁ hst hl
  -- what follows only adds vertices, and edges to them
  have hkeep : ∀ (sts : List Statement) (g' : Graph),
      sts.foldlM Statement.apply (x.addTo g₀) = .ok g' → g'.size ≤ 4294967296 →
        g'.Records g₀.size l := fun sts g' hrun hsize' =>
    ((Site.renders hg₀ hknown).extends (build_extends hrun hsize')).records hsize' (site?_has hx hl)
  refine ⟨g₀, hpre, hkeep post g hpost hsize, ?_⟩
  rintro mid rest rfl
  rw [List.foldlM_append, bind_eq_ok] at hpost
  obtain ⟨g', hmid, hrest⟩ := hpost
  refine ⟨g', ?_, hkeep mid g' hmid (Nat.le_trans (build_extends hrest hsize).size_le hsize)⟩
  rw [build, List.foldlM_append, bind_eq_ok]
  refine ⟨g₀, hpre, ?_⟩
  rw [List.foldlM_cons, bind_eq_ok]
  exact ⟨_, hst, hmid⟩

/-- A part of a definition whose condition names a bit twice that no register declares, before a gate
on the same slot. -/
def repeatedBits : Document where
  statements := [.register ⟨.qubit, 0, 1⟩, .define ⟨"flip", 0, 1, 1⟩,
    .callee ⟨"X", [], [0, 0], [0], [], false, some ⟨[7, 2, 7], "<=", 5⟩⟩,
    .callee ⟨"H", [], [0], [], [], false, none⟩, .op ⟨"X", [], [0], [], none⟩]

/-- The part loops, and the bits of its condition come from the root; they are all still there. -/
theorem repeatedBits_records : ∃ g, repeatedBits.build = .ok g ∧
    g.incidentBits 3 .qubit = .ok [0, 0] ∧ g.incidentBits 3 .clbit = .ok [0] ∧
    g.incidentBits 3 .conbit = .ok [7, 2, 7] ∧
    ∃ vertex o, g.vertex 3 = .ok vertex ∧ vertex.operation? = some o ∧
      o.comparison = some (.le, 5) := by
  obtain ⟨g, hbuild⟩ : ∃ g, repeatedBits.build = .ok g := ⟨_, rfl⟩
  have hsize : g.size ≤ 4294967296 := by
    obtain rfl := Except.ok.inj hbuild
    decide
  have hdoc : repeatedBits.statements =
      [.register ⟨.qubit, 0, 1⟩, .define ⟨"flip", 0, 1, 1⟩] ++
        .callee ⟨"X", [], [0, 0], [0], [], false, some ⟨[7, 2, 7], "<=", 5⟩⟩ ::
        [.callee ⟨"H", [], [0], [], [], false, none⟩, .op ⟨"X", [], [0], [], none⟩] := rfl
  obtain ⟨g₀, hpre, ⟨hq, hc, hcon, vertex, o, hv, ho, hcmp⟩, -⟩ :=
    build_records hbuild hsize hdoc rfl
  obtain rfl := Except.ok.inj hpre
  have hle : comparison? (some ⟨[7, 2, 7], "<=", 5⟩) = some (some (.le, 5)) := rfl
  exact ⟨g, hbuild, hq, hc, hcon, vertex, o, hv, ho, (Option.some.inj (hle.symm.trans hcmp)).symm⟩

end Document
end QCircuit
