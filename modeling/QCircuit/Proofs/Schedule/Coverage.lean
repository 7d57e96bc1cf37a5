import QCircuit.Proofs.Schedule.Conservation
import QCircuit.Proofs.Schedule.Contents

/-!
The slices of a circuit as divisions of its qubits.

In every slot each row belongs to one gate: its own, or the gate of another row when it holds a
marker. So a slice names each of its qubits once, and it names all qubits but those that are
measured before. A row counts as measured when it stores a measurement, which is the case of every
qubit that is measured on its own.
-/

namespace QCircuit

/-- A gate as calls may ask for it: no operand twice, and a single one for an identity. -/
structure Gate.Proper (g : Gate) : Prop where
  nodup : g.qubits.Nodup
  identity : g.isIdentity = true → g.qubits.length = 1

lemma Gate.proper_identity (q : Nat) : (Gate.identity q).Proper :=
  ⟨List.nodup_singleton q, fun _ => rfl⟩

namespace Schedule

/-! ### The cells of a call -/

lemma Call.exists_gate {c : Call} {q : Nat} (hq : q ∈ c.qubits) : ∃ g ∈ c.gates, q ∈ g.qubits := by
  cases c with
  | unitary g => exact ⟨g, List.mem_singleton_self g, hq⟩
  | measurement targets condition =>
    obtain ⟨p, hp, rfl⟩ := List.mem_map.mp hq
    exact ⟨_, List.mem_map_of_mem hp, List.mem_singleton_self p.1⟩

/-- Every gate of a call goes to one of its cells. -/
lemma exists_callCell {s s' : Schedule} {c : Call} {slot : Nat} (h : s.perform c = .ok (s', slot))
    (hnd : c.qubits.Nodup) {g : Gate} (hg : g ∈ c.gates) :
    ∃ r ∈ c.qubits, s.callCell c r = .gate g := by
  cases c with
  | unitary g' =>
    obtain rfl := List.mem_singleton.mp hg
    exact ⟨_, s.ownerRow_mem (perform_qubits_ne_nil h rfl), if_pos rfl⟩
  | measurement targets condition =>
    obtain ⟨p, hp, rfl⟩ := List.mem_map.mp hg
    refine ⟨p.1, List.mem_map_of_mem hp, ?_⟩
    rw [callCell, measureCell, lookup_of_mem hnd hp]
    rfl

/-! ### Covered rows -/

/-- Every row belongs to a gate in every slot. -/
def Covered (s : Schedule) : Prop := ∀ q t, ∃ r g, s.cellAt r t = .gate g ∧ q ∈ g.qubits

lemma covered_empty (n : Nat) : (empty n).Covered := fun q t =>
  ⟨q, .identity q, cellAt_empty n q t, List.mem_singleton_self q⟩

/-- **A call leaves no row without a gate.** -/
theorem Covered.perform {s s' : Schedule} {c : Call} {slot : Nat} (hs : s.Covered)
    (h : s.perform c = .ok (s', slot)) (hnd : c.qubits.Nodup) : s'.Covered := by
  have hf := perform_fills h hnd
  intro q t
  by_cases hq : q ∈ c.qubits ∧ t = slot
  · obtain ⟨hq, rfl⟩ := hq
    obtain ⟨g, hg, hqg⟩ := Call.exists_gate hq
    obtain ⟨r, hr, hcell⟩ := exists_callCell h hnd hg
    exact ⟨r, g, by rw [hf.cellAt, if_pos ⟨hr, rfl⟩, hcell], hqg⟩
  · obtain ⟨r, g, hcell, hqg⟩ := hs q t
    refine ⟨r, g, ?_, hqg⟩
    rw [hf.cellAt, if_neg, hcell]
    -- a cell that the call overwrites was idle, so it belonged to no row but its own
    rintro ⟨hr, rfl⟩
    rw [cellAt_of_free_le (hf.reached r hr)] at hcell
    obtain rfl := Cell.gate.inj hcell
    obtain rfl : q = r := List.mem_singleton.mp hqg
    exact hq ⟨hr, rfl⟩

namespace Runs

variable {s s' : Schedule} {calls : List (Call × Nat)}

lemma covered (h : Runs s calls s') (hs : s.Covered) (hnd : ∀ p ∈ calls, p.1.qubits.Nodup) :
    s'.Covered := by
  induction h with
  | nil s => exact hs
  | cons h rest ih =>
    obtain ⟨hc, hcalls⟩ := List.forall_mem_cons.mp hnd
    exact ih (hs.perform h hc) hcalls

end Runs

/-! ### Slices -/

lemma emitted_eq_some {s : Schedule} {t r : Nat} {g : Gate} :
    s.emitted t r = some g ↔ s.measured r t = false ∧ s.cellAt r t = .gate g := by
  unfold emitted
  cases hm : s.measured r t with
  | true => simp
  | false => cases hc : s.cellAt r t <;> simp

/-- The gates of slice `t`. -/
def sliceGates (s : Schedule) (t : Nat) : List Gate := (s.sliceRows t).map (·.1)

lemma mem_sliceGates {s : Schedule} {t : Nat} {g : Gate} :
    g ∈ s.sliceGates t ↔
      ∃ r < s.rows.length, s.measured r t = false ∧ s.cellAt r t = .gate g := by
  simp only [sliceGates, map_fst_sliceRows, List.mem_filterMap, List.mem_range, emitted_eq_some]

/-- A legal slice names no qubit whose row holds an earlier measurement. -/
lemma Legal.measured_of_mem {s : Schedule} (hl : s.Legal) {t q : Nat} {g : Gate}
    (hg : g ∈ s.sliceGates t) (hq : q ∈ g.qubits) : s.measured q t = false := by
  obtain ⟨r, -, hr, hcell⟩ := mem_sliceGates.mp hg
  have hlegal := hl t r g hcell
  rw [if_neg (by simp [hr])] at hlegal
  exact hlegal q hq

/-- The rows of calls on proper gates. -/
structure Divided (s : Schedule) : Prop extends s.Sound where
  covered : s.Covered
  proper : ∀ {q t g}, s.cellAt q t = .gate g → g.Proper

lemma Runs.divided {n : Nat} {s : Schedule} {calls : List (Call × Nat)}
    (h : Runs (empty n) calls s) (hnd : ∀ p ∈ calls, p.1.qubits.Nodup)
    (hid : ∀ p ∈ calls, ∀ g ∈ p.1.gates, g.isIdentity = true → g.qubits.length = 1) :
    s.Divided := by
  have hsound : s.Sound :=
    (sound_empty n).performAll h.performAll (List.forall_mem_map.mpr hnd)
  refine ⟨hsound, h.covered (covered_empty n) hnd, ?_⟩
  have hempty : Holds Gate.Proper (empty n).rows := by
    intro row hrow g hg
    rw [List.eq_of_mem_replicate hrow] at hg
    simp at hg
  have hholds : Holds Gate.Proper s.rows := by
    refine hempty.performAll (fun q _ => Gate.proper_identity q) (fun c hc g hg => ?_) h.performAll
    obtain ⟨p, hp, rfl⟩ := List.mem_map.mp hc
    exact ⟨nodup_of_mem_gates (hnd p hp) hg, hid p hp g hg⟩
  exact fun {q _ _} hcell => hholds.cellAt (Gate.proper_identity q) hcell

namespace Divided

variable {s : Schedule} (hs : s.Divided) (hl : s.Legal)
include hs

/-- Only one row has a gate on a given qubit. -/
lemma row_unique {r r' t q : Nat} {g g' : Gate} (h : s.cellAt r t = .gate g)
    (h' : s.cellAt r' t = .gate g') (hq : q ∈ g.qubits) (hq' : q ∈ g'.qubits) : r = r' := by
  by_contra hne
  exact hs.apart h h' hne q hq hq'

/-- A slice names no qubit twice. -/
lemma nodup_slice (t : Nat) : ((s.sliceGates t).flatMap (·.qubits)).Nodup := by
  rw [List.nodup_flatMap]
  constructor
  · intro g hg
    obtain ⟨r, -, -, hcell⟩ := mem_sliceGates.mp hg
    exact (hs.proper hcell).nodup
  · rw [sliceGates, map_fst_sliceRows, List.pairwise_filterMap]
    refine List.pairwise_lt_range.imp fun {r r'} hlt g hg g' hg' => ?_
    rw [emitted_eq_some] at hg hg'
    exact fun q hq hq' => Nat.ne_of_lt hlt (hs.row_unique hg.2 hg'.2 hq hq')

include hl

/-- **A slice names exactly the qubits whose rows hold no earlier measurement.** -/
theorem mem_slice_iff {t q : Nat} (hq : q < s.rows.length) :
    q ∈ (s.sliceGates t).flatMap (·.qubits) ↔ s.measured q t = false := by
  rw [List.mem_flatMap]
  constructor
  · rintro ⟨g, hg, hqg⟩
    exact hl.measured_of_mem hg hqg
  · intro hm
    obtain ⟨r, g, hcell, hqg⟩ := hs.covered q t
    -- a measured row holds identities only, and those name their row alone
    have hr : s.measured r t = false := by
      by_contra hr
      have hlegal := hl t r g hcell
      rw [if_pos (by simpa using hr)] at hlegal
      obtain ⟨o, ho⟩ := List.length_eq_one_iff.mp ((hs.proper hcell).identity hlegal)
      have hro := hs.owner hcell
      rw [ho, List.mem_singleton] at hqg hro
      rw [hro, ← hqg, hm] at hr
      exact hr rfl
    have hrow : r < s.rows.length := by
      by_contra hge
      rw [cellAt_outside (Nat.le_of_not_lt hge)] at hcell
      obtain rfl := Cell.gate.inj hcell
      exact hge (List.mem_singleton.mp hqg ▸ hq)
    exact ⟨g, mem_sliceGates.mpr ⟨r, hrow, hr, hcell⟩, hqg⟩

end Divided

end Schedule

/-! ### Circuits -/

/-- Whether the gate measures this qubit and no other. -/
def Gate.MeasuresAlone (g : Gate) (q : Nat) : Prop := g.isMeasure = true ∧ g.qubits = [q]

instance (g : Gate) (q : Nat) : Decidable (g.MeasuresAlone q) :=
  inferInstanceAs (Decidable (_ ∧ _))

namespace Circuit

/-- Whether a measurement in a slice before `t` names the qubit. -/
def MeasuredBefore (c : Circuit) (t q : Nat) : Prop :=
  ∃ slice ∈ c.slices.take t, ∃ g ∈ slice, g.isMeasure = true ∧ q ∈ g.qubits

/-- Whether the qubit is measured on its own in a slice before `t`. -/
def MeasuredAloneBefore (c : Circuit) (t q : Nat) : Prop :=
  ∃ slice ∈ c.slices.take t, ∃ g ∈ slice, g.MeasuresAlone q

instance (c : Circuit) (t q : Nat) : Decidable (c.MeasuredBefore t q) :=
  inferInstanceAs (Decidable (∃ slice ∈ c.slices.take t, ∃ g ∈ slice, _ ∧ _))

instance (c : Circuit) (t q : Nat) : Decidable (c.MeasuredAloneBefore t q) :=
  inferInstanceAs (Decidable (∃ slice ∈ c.slices.take t, ∃ g ∈ slice, _))

end Circuit

namespace Schedule

variable {s : Schedule} {clbits : Nat} {c : Circuit}

lemma slices_eq (h : s.flatten clbits = .ok c) :
    c.slices = (List.range s.height).map s.sliceGates := by
  obtain ⟨-, rfl⟩ := flatten_eq_ok_iff.mp h
  rfl

lemma mem_take_slices (h : s.flatten clbits = .ok c) {t : Nat} {slice : List Gate} :
    slice ∈ c.slices.take t ↔ ∃ u < t, u < s.height ∧ s.sliceGates u = slice := by
  simp only [slices_eq h, ← List.map_take, List.take_range, List.mem_map, List.mem_range,
    lt_inf_iff, and_assoc]

/-- The first measurement that a row stores is in the circuit. -/
lemma Sound.exists_measurement (hs : s.Sound) {t q : Nat} (hm : s.measured q t = true) :
    ∃ u < t, u < s.height ∧ ∃ g ∈ s.sliceGates u, g.isMeasure = true ∧ q ∈ g.qubits := by
  induction t with
  | zero => simp [measured] at hm
  | succ t ih =>
    by_cases hearlier : s.measured q t = true
    · obtain ⟨u, hu, hg⟩ := ih hearlier
      exact ⟨u, Nat.lt_succ_of_lt hu, hg⟩
    · rw [measured_succ, Bool.or_eq_true, or_iff_right hearlier] at hm
      cases hcell : s.cellAt q t with
      | reserved => simp [hcell, Cell.isMeasure] at hm
      | gate g =>
        rw [hcell] at hm
        have hne : s.cellAt q t ≠ idle q := by
          rintro hidle
          rw [← hcell, hidle] at hm
          simp at hm
        have hrow : q < s.rows.length := by
          by_contra hge
          exact hne (cellAt_outside (Nat.le_of_not_lt hge) t)
        have hslot : t < s.height := by
          by_contra hge
          exact hne (cellAt_of_height_le (Nat.le_of_not_lt hge) q)
        refine ⟨t, Nat.lt_succ_self t, hslot, g, ?_, hm, hs.owner hcell⟩
        exact mem_sliceGates.mpr ⟨q, hrow, by simpa using hearlier, hcell⟩

/-- A qubit that is measured on its own has its measurement in its row. -/
lemma Sound.measured_of_alone (hs : s.Sound) {u t q : Nat} (hut : u < t) {g : Gate}
    (hg : g ∈ s.sliceGates u) (halone : g.MeasuresAlone q) : s.measured q t = true := by
  obtain ⟨r, -, -, hcell⟩ := mem_sliceGates.mp hg
  have hr := hs.owner hcell
  rw [halone.2, List.mem_singleton] at hr
  subst hr
  exact measured_iff.mpr ⟨u, hut, by rw [hcell]; exact halone.1⟩

/-- **Every slice names each qubit once** as long as no measurement has named it, and never again
after the qubit was measured on its own. So a qubit is measured on its own at most once. -/
theorem flatten_covers (n clbits : Nat) (cs : List Call) {circuit : Circuit}
    (hnd : ∀ c ∈ cs, c.qubits.Nodup)
    (hid : ∀ c ∈ cs, ∀ g ∈ c.gates, g.isIdentity = true → g.qubits.length = 1)
    (hflat : ((empty n).run cs).flatten clbits = .ok circuit) :
    (∀ t slice, circuit.slices[t]? = some slice →
      (∀ q < n, ¬circuit.MeasuredBefore t q → (slice.flatMap (·.qubits)).count q = 1) ∧
        ∀ q, circuit.MeasuredAloneBefore t q → ∀ g ∈ slice, q ∉ g.qubits) ∧
      circuit.gates.Pairwise fun a b => ∀ q, a.MeasuresAlone q → q ∉ b.qubits := by
  have hs : ((empty n).run cs).Divided :=
    (runs_accepted (empty n) cs).divided (fun p hp => hnd _ (mem_of_mem_accepted hp))
      fun p hp => hid _ (mem_of_mem_accepted hp)
  have hlen : ((empty n).run cs).rows.length = n := (run_length hnd).trans List.length_replicate
  obtain ⟨hl, -⟩ := flatten_eq_ok_iff.mp hflat
  generalize (empty n).run cs = s at hs hlen hl hflat
  -- a later slice is silent on a qubit that is measured on its own
  have hsilent : ∀ {u t : Nat}, u < t → ∀ m ∈ s.sliceGates u, ∀ g ∈ s.sliceGates t,
      ∀ q, m.MeasuresAlone q → q ∉ g.qubits := by
    intro u t hut m hm g hg q halone hqg
    have hmeasured := hs.measured_of_alone hut hm halone
    rw [hl.measured_of_mem hg hqg] at hmeasured
    exact Bool.false_ne_true hmeasured
  refine ⟨fun t slice ht => ?_, ?_⟩
  · obtain ⟨hlt, rfl⟩ := List.getElem?_eq_some_iff.mp ht
    simp only [slices_eq hflat, List.getElem_map, List.getElem_range]
    refine ⟨fun q hq hbefore => ?_, fun q hbefore g hg => ?_⟩
    · refine List.count_eq_one_of_mem (hs.nodup_slice t)
        ((hs.mem_slice_iff hl (hlen ▸ hq)).mpr ?_)
      by_contra hm
      obtain ⟨u, hut, hu, g, hg, hmeasure⟩ := hs.exists_measurement (by simpa using hm)
      exact hbefore ⟨_, (mem_take_slices hflat).mpr ⟨u, hut, hu, rfl⟩, g, hg, hmeasure⟩
    · obtain ⟨slice, hslice, m, hm, halone⟩ := hbefore
      obtain ⟨u, hut, -, rfl⟩ := (mem_take_slices hflat).mp hslice
      exact hsilent hut m hm g hg q halone
  · rw [Circuit.gates, slices_eq hflat, List.pairwise_flatten, List.pairwise_map,
      List.forall_mem_map]
    refine ⟨fun t _ => ?_, List.pairwise_lt_range.imp fun hut => hsilent hut⟩
    refine (List.nodup_flatMap.mp (hs.nodup_slice t)).2.imp fun {a b} hab q halone hq => ?_
    have hqa : q ∈ a.qubits := by
      rw [halone.2]
      exact List.mem_singleton_self q
    exact hab hqa hq

/-- A gate on two qubits, a measurement of one of them, and a gate on the other. -/
def measuredControl : List Call :=
  [.unitary { kind := .standard .cnot, qubits := [0, 1] }, .measurement [(0, 0)] none,
    .unitary { kind := .standard .h, qubits := [1] }]

theorem measuredControl_covers :
    ∃ circuit, ((empty 2).run measuredControl).flatten 1 = .ok circuit ∧
      ¬circuit.MeasuredBefore 2 1 ∧ circuit.MeasuredAloneBefore 2 0 ∧
      ((circuit.slices.getD 2 []).flatMap (·.qubits)).count 1 = 1 ∧
      ∀ g ∈ circuit.slices.getD 2 [], 0 ∉ g.qubits := by
  refine ⟨_, rfl, ?_⟩
  have h := (flatten_covers 2 1 measuredControl (by decide) (by decide) rfl).1 2 _ rfl
  have hlive := h.1 1 (by decide) (by decide)
  have hsilent := h.2 0 (by decide)
  exact ⟨by decide, by decide, hlive, hsilent⟩

/-- A gate on the second qubit, one that measures both, and a gate on the first. -/
def sharedMeasurement : List Call :=
  [.unitary { kind := .standard .h, qubits := [1] },
    .unitary { kind := .standard .measure, qubits := [0, 1] },
    .unitary { kind := .standard .h, qubits := [0] }]

/-- The row of the second qubit stores the measurement: the circuit names the first one again. -/
theorem sharedMeasurement_named :
    (∀ c ∈ sharedMeasurement, c.qubits.Nodup ∧ (∀ q ∈ c.qubits, q < 2) ∧
        ∀ g ∈ c.gates, g.isIdentity = true → g.qubits.length = 1) ∧
      ∃ circuit, ((empty 2).run sharedMeasurement).flatten 1 = .ok circuit ∧
        circuit.MeasuredBefore 2 0 ∧ ∃ g ∈ circuit.slices.getD 2 [], 0 ∈ g.qubits :=
  ⟨by decide, _, rfl, by decide, by decide⟩

end Schedule
end QCircuit
