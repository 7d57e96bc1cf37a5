import QCircuit.Proofs.Graph.Records

/-!
Which documents have an order.

A bit is brought from its last user, and once it is brought the vertex itself is the last user. So a
bit that is listed twice comes the second time from the vertex that lists it, as an operand or for a
condition that is linked after the operands. Inside a definition conditions are not linked this way,
and may repeat what they like.
-/

namespace QCircuit

open QCircuit.Graph

namespace Graph

/-- Where no bit is used twice, and none was used last by the vertex, no wire comes from the vertex
itself. -/
lemma source_wires_ne {v : Nat} {frontier : List (Leaf × Nat)} {bits : List (Leaf × Wire)}
    (huser : ∀ b ∈ bits, frontier.lookup b.1 ≠ some v) (hnd : (bits.map (·.1)).Nodup) :
    ∀ e ∈ wires v frontier bits, e.source ≠ v := by
  induction bits generalizing frontier with
  | nil => simp [wires]
  | cons b bits ih =>
    obtain ⟨leaf, wire⟩ := b
    rw [List.map_cons, List.nodup_cons] at hnd
    have huser' : ∀ b ∈ bits, frontier.lookup b.1 ≠ some v :=
      fun b hb => huser b (List.mem_cons_of_mem _ hb)
    rw [wires]
    cases hu : frontier.lookup leaf with
    | none => exact ih huser' hnd.2
    | some u =>
      intro e he
      rcases List.mem_cons.mp he with rfl | he
      · intro hself
        exact huser (leaf, wire) List.mem_cons_self (hself ▸ hu)
      · refine ih (fun b hb => ?_) hnd.2 e he
        have hne : b.1 ≠ leaf := fun h => hnd.1 (List.mem_map.mpr ⟨b, hb, h⟩)
        rw [List.lookup_cons, beq_eq_false_iff_ne.mpr hne]
        exact huser' b hb

end Graph

/-- **A site loops exactly when a bit that is linked to it is used twice.** -/
theorem Site.loopless_addTo_iff {x : Site} {g : Graph} (hg : Wired g)
    (hknown : ∀ b ∈ x.links (x.root g), g.knows b.1) :
    (x.addTo g).Loopless ↔ g.Loopless ∧ ((x.links (x.root g)).map (·.1)).Nodup := by
  constructor
  · intro hloop
    refine ⟨fun e he => hloop e (Site.mem_edges.mpr (Or.inl he)), ?_⟩
    refine nodup_of_wires (v := g.size) hknown fun e he hself => ?_
    have hmem : e ∈ (x.addTo g).edges := Site.mem_edges.mpr (Or.inr (List.mem_append_left _ he))
    exact hloop e hmem (hself.trans (target_wires he).symm)
  · rintro ⟨hloop, hnd⟩ e he
    rcases Site.mem_edges.mp he with hold | hnew
    · exact hloop e hold
    · rw [Site.target_edges hnew]
      rcases Site.mem_wires_or_root hnew with hwire | ⟨r, c, hr, rfl⟩
      · refine source_wires_ne (fun b _ hu => ?_) hnd e hwire
        exact Nat.lt_irrefl _ (hg.user _ (mem_of_lookup hu))
      · -- the root of a body is an old vertex
        exact Nat.ne_of_lt (hg.current r (Site.root_eq_some_iff.mp hr).2).lt_size

namespace Document

/-- Every part of a definition follows one. -/
def PartsFollow (sts : List Statement) : Prop := partsOf sts = []

instance (sts : List Statement) : Decidable (PartsFollow sts) :=
  inferInstanceAs (Decidable (partsOf sts = []))

lemma partsFollow_snoc {sts : List Statement} {st : Statement} (h : PartsFollow (sts ++ [st])) :
    PartsFollow sts ∧ ∀ p, st = .callee p → sts.any (·.isDefine) := by
  rw [PartsFollow, partsOf_snoc] at h
  split at h
  · obtain ⟨hsts, hst⟩ := List.append_eq_nil_iff.mp h
    refine ⟨hsts, ?_⟩
    rintro p rfl
    simp [Statement.part?] at hst
  · next hdef =>
    refine ⟨h, fun p _ => ?_⟩
    simpa [List.any_eq_true] using hdef

/-- The statement lists a bit twice; outside of definitions the bits of its condition count, too. -/
def Statement.RepeatsBit (st : Statement) : Prop :=
  ∃ l ∈ st.listing?, ¬ l.qubits.Nodup ∨ ¬ l.clbits.Nodup ∨
    st.isTop ∧ (¬ (guardBits l.condition).Nodup ∨ ∃ b ∈ guardBits l.condition, b ∈ l.clbits)

instance (st : Statement) : Decidable st.RepeatsBit :=
  inferInstanceAs (Decidable (∃ l ∈ st.listing?, _))

lemma exists_listing {st : Statement} {x : Site} (hx : st.site? = some x) :
    ∃ l, st.listing? = some l ∧ x.Has l := by
  cases st with
  | register r => simp [Statement.site?] at hx
  | define d => simp [Statement.site?] at hx
  | _ => exact ⟨_, rfl, site?_has hx rfl⟩

/-- Different bits of a kind are different leaves. -/
lemma nodup_leaves {scope : Scope} {kind : BitKind} {bits : List Nat} :
    (bits.map fun b => (⟨scope, kind, b⟩ : Leaf)).Nodup ↔ bits.Nodup :=
  List.nodup_map_iff fun a b h => by simpa using h

lemma leaves_operands (x : Site) : x.operands.map (·.1) =
    x.qubits.map (⟨x.scope, .qubit, ·⟩) ++ x.clbits.map (⟨x.scope, .clbit, ·⟩) := by
  simp [Site.operands, Function.comp_def]

lemma nodup_operands_iff (x : Site) :
    (x.operands.map (·.1)).Nodup ↔ x.qubits.Nodup ∧ x.clbits.Nodup := by
  rw [leaves_operands, List.nodup_append, nodup_leaves, nodup_leaves]
  refine and_congr_right fun _ => and_iff_left fun a ha b hb => ?_
  obtain ⟨q, -, rfl⟩ := List.mem_map.mp ha
  obtain ⟨c, -, rfl⟩ := List.mem_map.mp hb
  simp

/-- The links of a site use a bit twice exactly when its statement does. -/
lemma nodup_links_iff {st : Statement} {x : Site} (hx : st.site? = some x) {root : Option Nat}
    (hroot : root.isNone ↔ st.isTop) :
    ((x.links root).map (·.1)).Nodup ↔ ¬ st.RepeatsBit := by
  obtain ⟨l, hl, hhas⟩ := exists_listing hx
  have hrepeats : st.RepeatsBit ↔ ¬ x.qubits.Nodup ∨ ¬ x.clbits.Nodup ∨
      st.isTop ∧ (¬ x.conbits.Nodup ∨ ∃ b ∈ x.conbits, b ∈ x.clbits) := by
    simp [Statement.RepeatsBit, hl, hhas.qubits, hhas.clbits, hhas.conbits]
  rw [hrepeats, Site.links]
  cases htop : st.isTop with
  | false =>
    have hsome : root.isNone = false := by
      rw [Bool.eq_false_iff, ne_eq, hroot, htop]
      simp
    simp [hsome, nodup_operands_iff]
  | true =>
    -- outside of definitions the condition is linked after the operands
    have hshared : (∀ a ∈ x.operands.map (·.1), ∀ b ∈ x.conbits.map (⟨.global, .clbit, ·⟩),
        a ≠ b) ↔ ∀ b ∈ x.conbits, b ∉ x.clbits := by
      rw [leaves_operands, (site?_isTop hx).mpr htop]
      simp only [List.mem_append, List.mem_map]
      grind
    rw [if_pos (hroot.mpr htop), List.map_append, List.map_map, List.nodup_append,
      nodup_operands_iff]
    simp only [Function.comp_def, nodup_leaves, hshared]
    push Not
    simp only [forall_const, and_assoc]

/-- **A graph has a loop exactly when a statement repeats a bit.** -/
theorem build_loopless_iff {sts : List Statement} {g : Graph}
    (h : sts.foldlM Statement.apply .empty = .ok g) (hsize : g.size ≤ 4294967296)
    (hparts : PartsFollow sts) : g.Loopless ↔ ∀ st ∈ sts, ¬ st.RepeatsBit := by
  revert hparts
  refine build_induct (P := fun sts g => PartsFollow sts →
    (g.Loopless ↔ ∀ st ∈ sts, ¬ st.RepeatsBit)) ?_ ?_ h hsize
  · simp [Loopless, Graph.empty]
  intro sts st g g' hbuild hsize hst ih hparts
  obtain ⟨hsts, hdef⟩ := partsFollow_snoc hparts
  have hle := Nat.le_trans (apply_extends hsize hst).size_le hsize
  have hg := build_wired hbuild hle
  simp only [List.forall_mem_append, List.forall_mem_singleton, ← ih hsts]
  rcases apply_cases hsize hst with ⟨r, rfl, rfl⟩ | ⟨d, rfl, rfl⟩ | ⟨x, hx, hknown, rfl⟩
  · rw [and_iff_left (by simp [Statement.RepeatsBit, Statement.listing?])]
    refine ⟨fun hloop e he => hloop e ((r.extends_addTo g).mem_edges he), fun hloop e he => ?_⟩
    rcases Register.mem_edges he with hold | ⟨i, -, rfl⟩
    · exact hloop e hold
    · simp only
      omega
  · exact (and_iff_left (by simp [Statement.RepeatsBit, Statement.listing?])).symm
  · rw [Site.loopless_addTo_iff hg hknown, nodup_links_iff hx]
    -- a part of a definition has a root to take its condition from
    cases hscope : x.scope with
    | global => simp [Site.root, hscope, (site?_isTop hx).mp hscope]
    | inner =>
      obtain ⟨-, p, rfl, -, -⟩ := site?_inner hx hscope
      have hcur : g.current.isSome := by rw [build_current hbuild hle, hdef p rfl]
      simpa [Site.root, hscope, Statement.isTop, Option.isSome_iff_ne_none] using hcur

/-- **Which documents are cyclic.** If every part follows a definition, the graph has no order exactly
when some statement repeats a bit; otherwise its order is that of the vertices. -/
theorem build_cyclic_iff {d : Document} {g : Graph} (hbuild : d.build = .ok g)
    (hsize : g.size ≤ 4294967296) (hparts : PartsFollow d.statements) :
    (g.topologicalOrder = .error .cyclic ↔ ∃ st ∈ d.statements, st.RepeatsBit) ∧
      (g.topologicalOrder = .ok (List.range g.size) ↔
        ¬ ∃ st ∈ d.statements, st.RepeatsBit) := by
  have hloop := build_loopless_iff hbuild hsize hparts
  simp only [topologicalOrder_error_iff, ne_eq, topologicalOrder_ok (build_wired hbuild hsize), hloop]
  constructor
  · constructor
    · intro hnone
      by_contra hno
      exact hnone _ ⟨fun st hst hrep => hno ⟨st, hst, hrep⟩, rfl⟩
    · rintro ⟨st, hst, hrep⟩ order ⟨hno, -⟩
      exact hno st hst hrep
  · simp

/-- A part of a definition whose condition names a bit twice, and two gates of which the second one
is guarded by the bit that it measures into. -/
def guardedMeasurement : Document where
  statements := [.register ⟨.qubit, 0, 1⟩, .register ⟨.clbit, 0, 1⟩, .define ⟨"flip", 0, 1, 1⟩,
    .callee ⟨"X", [], [0], [0], [], false, some ⟨[0, 0], "==", 0⟩⟩,
    .op ⟨"X", [], [0], [], some ⟨[0], "==", 1⟩⟩,
    .op ⟨"measure", [], [0], [0], some ⟨[0], "==", 1⟩⟩]

/-- The measurement is the only obstacle. -/
theorem guardedMeasurement_cyclic :
    (∃ g, guardedMeasurement.build = .ok g ∧ g.topologicalOrder = .error .cyclic) ∧
      ∃ g, build ⟨guardedMeasurement.statements.take 5⟩ = .ok g ∧
        g.topologicalOrder = .ok [0, 1, 2, 3, 4, 5, 6] := by
  constructor
  · obtain ⟨g, hbuild⟩ : ∃ g, guardedMeasurement.build = .ok g := ⟨_, rfl⟩
    have hsize : g.size ≤ 4294967296 := by
      obtain rfl := Except.ok.inj hbuild
      decide
    exact ⟨g, hbuild, (build_cyclic_iff hbuild hsize (by decide)).1.mpr (by decide)⟩
  · obtain ⟨g, hbuild⟩ : ∃ g, build ⟨guardedMeasurement.statements.take 5⟩ = .ok g := ⟨_, rfl⟩
    have hsize : g.size = 7 := by
      obtain rfl := Except.ok.inj hbuild
      rfl
    have horder := (build_cyclic_iff hbuild (by omega) (by decide)).2.mpr (by decide)
    rw [hsize] at horder
    exact ⟨g, hbuild, horder⟩

end Document
end QCircuit
