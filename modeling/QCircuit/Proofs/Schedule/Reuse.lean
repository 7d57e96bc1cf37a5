import QCircuit.Proofs.Schedule.Coverage

/-!
Qubits used after their measurement.

A schedule becomes no circuit exactly when a call uses a qubit that an earlier call measured. The
error names the qubit, and the slot and the gate of the later call. A call measures a qubit when the
row of the qubit stores its measurement.
-/

namespace QCircuit.Schedule

/-! ### The error of a schedule -/

/-- A gate that does something stands in slot `t` and uses a measured qubit; the error says so. -/
def Misuse (s : Schedule) (e : CompileError) : Prop :=
  ∃ r t q g, s.cellAt r t = .gate g ∧ g.isIdentity = false ∧ q ∈ g.qubits ∧
    s.measured q t = true ∧ e = .afterMeasurement q t g.name

section Error

variable {s : Schedule} (hs : s.Divided) {e : CompileError}
include hs

lemma emit_eq_error {earlier : List Nat} {t r : Nat} {row : List Cell}
    (hearlier : ∀ o, o ∈ earlier ↔ s.measured o t = true) (hrow : s.rows[r]? = some row)
    (h : emit earlier t r row[t]? = .error e) : s.Misuse e := by
  have hcell := cellAt_eq hrow t
  unfold emit at h
  split at h
  · next hm =>
    -- a gate in a measured row
    rcases hc : row[t]? with _ | ⟨g | _⟩ <;> rw [hc] at h hcell <;> simp only [reduceCtorEq] at h
    split at h
    · simp at h
    · next hid =>
      exact ⟨r, t, r, g, hcell, by simpa using hid, hs.owner hcell, (hearlier r).mp hm,
        (Except.error.inj h).symm⟩
  · next hm =>
    rcases hc : row[t]? with _ | ⟨g | _⟩ <;> rw [hc] at h hcell <;> simp only [reduceCtorEq] at h
    split at h
    · next o ho =>
      -- a gate that shares a measured qubit; an identity has its own row only
      have hmo : o ∈ earlier := by simpa using List.find?_some ho
      have hog : o ∈ g.qubits := List.mem_of_find?_eq_some ho
      refine ⟨r, t, o, g, hcell, ?_, hog, (hearlier o).mp hmo, (Except.error.inj h).symm⟩
      by_contra hid
      obtain ⟨q, hq⟩ := List.length_eq_one_iff.mp ((hs.proper hcell).identity (by simpa using hid))
      have hrg := hs.owner hcell
      rw [hq, List.mem_singleton] at hog hrg
      exact hm (hrg ▸ hog ▸ hmo)
    · simp at h

lemma slice_eq_error {earlier : List Nat} {t : Nat}
    (hearlier : ∀ o, o ∈ earlier ↔ s.measured o t = true) (h : s.slice earlier t = .error e) :
    s.Misuse e := by
  simp only [slice, bind_eq_error, pure, Except.pure, reduceCtorEq, and_false, exists_false,
    or_false] at h
  obtain ⟨⟨row, r⟩, hp, h⟩ := exists_of_mapM_error h
  simp only [bind_eq_error, reduceCtorEq, and_false, exists_false, or_false] at h
  exact emit_eq_error hs hearlier (by simpa [List.mem_zipIdx_iff_getElem?] using hp) h

lemma slicesFrom_eq_error (n : Nat) {t : Nat} {earlier : List Nat}
    (hearlier : ∀ o, o ∈ earlier ↔ s.measured o t = true)
    (h : s.slicesFrom earlier (List.range' t n) = .error e) : s.Misuse e := by
  induction n generalizing t earlier with
  | zero => simp [slicesFrom] at h
  | succ n ih =>
    simp only [List.range'_succ, slicesFrom, bind_eq_error, pure, Except.pure, reduceCtorEq,
      and_false, exists_false, or_false] at h
    rcases h with h | ⟨gs, hgs, h⟩
    · exact slice_eq_error hs hearlier h
    · obtain ⟨-, rfl⟩ := (slice_eq_ok_iff hearlier).mp hgs
      refine ih (fun o => ?_) h
      rw [List.mem_append, mem_fresh_iff, hearlier, measured_succ]
      cases s.measured o t <;> simp

/-- **The error of a schedule names a gate that uses a measured qubit.** -/
theorem flatten_misuse {clbits : Nat} (h : s.flatten clbits = .error e) : s.Misuse e := by
  simp only [flatten, List.range_eq_range', bind_eq_error, pure, Except.pure, reduceCtorEq,
    and_false, exists_false, or_false] at h
  exact slicesFrom_eq_error hs _ (fun o => by simp [measured]) h

end Error

/-- A legal schedule has no such gate. -/
lemma Legal.not_misuse {s : Schedule} (hl : s.Legal) (e : CompileError) : ¬s.Misuse e := by
  rintro ⟨r, t, q, g, hcell, hid, hq, hm, -⟩
  have hlegal := hl t r g hcell
  split at hlegal
  · rw [hid] at hlegal
    exact Bool.false_ne_true hlegal
  · rw [hlegal q hq] at hm
    exact Bool.false_ne_true hm

/-! ### The calls behind the cells -/

lemma mem_gates_of_callCell {s : Schedule} {c : Call} {q : Nat} {g : Gate}
    (h : s.callCell c q = .gate g) : g ∈ c.gates := by
  cases c with
  | unitary g' =>
    rw [callCell, unitaryCell] at h
    split at h
    · rw [Cell.gate.inj h]
      exact List.mem_singleton_self g
    · simp at h
  | measurement targets condition =>
    rw [callCell, measureCell] at h
    rcases hl : targets.lookup q with _ | c
    · simp [hl] at h
    · rw [hl] at h
      obtain rfl : Gate.measure q c condition = g := Cell.gate.inj h
      obtain ⟨l, l', rfl, -⟩ := List.lookup_eq_some_iff.mp hl
      exact List.mem_map_of_mem (f := fun p => Gate.measure p.1 p.2 condition) (a := (q, c))
        (by simp)

/-- Two items of an ordered list that are not the other way round. -/
lemma pair_sublist_of_pairwise {α : Type} {R : α → α → Prop} {xs : List α} (h : xs.Pairwise R)
    {a b : α} (ha : a ∈ xs) (hb : b ∈ xs) (hne : a ≠ b) (hnot : ¬R b a) : [a, b].Sublist xs := by
  induction h with
  | nil => simp at ha
  | @cons x xs hx _ ih =>
    rcases List.mem_cons.mp ha with hax | ha <;> rcases List.mem_cons.mp hb with hbx | hb
    · exact absurd (hax.trans hbx.symm) hne
    · rw [hax]
      exact (List.singleton_sublist.mpr hb).cons_cons x
    · exact absurd (hbx ▸ hx a ha) hnot
    · exact (ih ha hb).cons x

namespace Runs

variable {s s' : Schedule} {calls : List (Call × Nat)}

/-- What a row has passed stays as it is. -/
lemma cellAt_eq (h : Runs s calls s') (hnd : ∀ p ∈ calls, p.1.qubits.Nodup) {q t : Nat}
    (ht : t < s.free q) : s'.cellAt q t = s.cellAt q t := by
  induction h with
  | nil s => rfl
  | cons h rest ih =>
    obtain ⟨hc, hcalls⟩ := List.forall_mem_cons.mp hnd
    have hf := perform_fills h hc
    rw [ih hcalls (Nat.lt_of_lt_of_le ht (hf.free_le q)), hf.cellAt, if_neg]
    rintro ⟨hq, rfl⟩
    exact absurd (hf.reached q hq) (Nat.not_le_of_lt ht)

/-- Every gate of a call stands in the slot of the call, on a row that the call uses. -/
lemma exists_cell (h : Runs s calls s') (hnd : ∀ p ∈ calls, p.1.qubits.Nodup) {p : Call × Nat}
    (hp : p ∈ calls) {g : Gate} (hg : g ∈ p.1.gates) :
    ∃ r ∈ p.1.qubits, s'.cellAt r p.2 = .gate g := by
  induction h with
  | nil s => simp at hp
  | cons h rest ih =>
    obtain ⟨hc, hcalls⟩ := List.forall_mem_cons.mp hnd
    rcases List.mem_cons.mp hp with rfl | hp
    · have hf := perform_fills h hc
      obtain ⟨r, hr, hcell⟩ := exists_callCell h hc hg
      refine ⟨r, hr, ?_⟩
      rw [rest.cellAt_eq hcalls (by rw [hf.free_mem r hr]; omega), hf.cellAt, if_pos ⟨hr, rfl⟩,
        hcell]
    · exact ih hcalls hp

/-- A gate in a cell was there before, or a call put it there. -/
lemma call_of_cell (h : Runs s calls s') (hnd : ∀ p ∈ calls, p.1.qubits.Nodup) {q t : Nat}
    {g : Gate} (hcell : s'.cellAt q t = .gate g) :
    s.cellAt q t = .gate g ∨ ∃ p ∈ calls, p.2 = t ∧ q ∈ p.1.qubits ∧ g ∈ p.1.gates := by
  induction h with
  | nil s => exact Or.inl hcell
  | @cons s s₁ s' c slot calls h rest ih =>
    obtain ⟨hc, hcalls⟩ := List.forall_mem_cons.mp hnd
    rcases ih hcalls hcell with hold | ⟨p, hp, hnew⟩
    · rw [(perform_fills h hc).cellAt] at hold
      split at hold
      · next hq =>
        exact Or.inr ⟨(c, slot), List.mem_cons_self, hq.2.symm, hq.1, mem_gates_of_callCell hold⟩
      · exact Or.inl hold
    · exact Or.inr ⟨p, List.mem_cons_of_mem _ hp, hnew⟩

/-- Calls that share a qubit are in the order of their slots. -/
lemma sublist_of_slot_lt (h : Runs s calls s') (hnd : ∀ p ∈ calls, p.1.qubits.Nodup)
    {a b : Call × Nat} (ha : a ∈ calls) (hb : b ∈ calls) (hslot : a.2 < b.2) {q : Nat}
    (hqa : q ∈ a.1.qubits) (hqb : q ∈ b.1.qubits) : [a, b].Sublist calls := by
  refine pair_sublist_of_pairwise (h.pairwise_slot hnd) ha hb (fun hab => ?_) fun hba => ?_
  · rw [hab] at hslot
    exact Nat.lt_irrefl _ hslot
  · exact Nat.lt_asymm hslot (hba ⟨q, hqb, hqa⟩)

end Runs

/-! ### Use after measurement -/

namespace Call

/-- Whether a gate of the call does something to the qubit. -/
def Acts (c : Call) (q : Nat) : Prop := ∃ g ∈ c.gates, g.isIdentity = false ∧ q ∈ g.qubits

end Call

/-- Whether the row of a qubit stores a measurement of the call, which stands in slot `p.2`. -/
def Measures (s : Schedule) (p : Call × Nat) (q : Nat) : Prop :=
  q ∈ p.1.qubits ∧ (s.cellAt q p.2).isMeasure = true

section Calls

variable {n : Nat} {s : Schedule} {calls : List (Call × Nat)} (h : Runs (empty n) calls s)
  (hnd : ∀ p ∈ calls, p.1.qubits.Nodup)
include h hnd

/-- A gate that does something comes from a call. -/
lemma Runs.exists_call {r t : Nat} {g : Gate} (hcell : s.cellAt r t = .gate g)
    (hid : g.isIdentity = false) : ∃ p ∈ calls, p.2 = t ∧ r ∈ p.1.qubits ∧ g ∈ p.1.gates := by
  refine (h.call_of_cell hnd hcell).resolve_left fun hold => ?_
  rw [cellAt_empty] at hold
  obtain rfl := Cell.gate.inj hold
  exact Bool.false_ne_true hid.symm

/-- A measurement in a cell comes from a call. -/
lemma Runs.exists_measuring_call {q t : Nat} (hm : (s.cellAt q t).isMeasure = true) :
    ∃ a ∈ calls, a.2 = t ∧ q ∈ a.1.qubits ∧
      ∃ m ∈ a.1.gates, m.isMeasure = true ∧ s.cellAt q t = .gate m := by
  cases hcell : s.cellAt q t with
  | reserved => simp [hcell, Cell.isMeasure] at hm
  | gate m =>
    rw [hcell] at hm
    have hid : m.isIdentity = false := by
      rw [Gate.isIdentity, Gate.Kind.isIdentity, of_decide_eq_true hm]
      rfl
    obtain ⟨a, ha, hslot, hqa, hma⟩ := h.exists_call hnd hcell hid
    exact ⟨a, ha, hslot, hqa, m, hma, hm, rfl⟩

/-- A row that holds a measurement was measured by a call. -/
lemma Runs.exists_measures {q t : Nat} (hm : s.measured q t = true) :
    ∃ a ∈ calls, a.2 < t ∧ s.Measures a q := by
  obtain ⟨u, hu, hmeasure⟩ := measured_iff.mp hm
  obtain ⟨a, ha, rfl, hqa, -⟩ := h.exists_measuring_call hnd hmeasure
  exact ⟨a, ha, hu, hqa, hmeasure⟩

/-- Behind a gate on a measured qubit there are two calls. -/
lemma Runs.exists_reuse {e : CompileError} (he : s.Misuse e) :
    ∃ a b q, [a, b].Sublist calls ∧ s.Measures a q ∧
      ∃ g ∈ b.1.gates, g.isIdentity = false ∧ q ∈ g.qubits ∧
        e = .afterMeasurement q b.2 g.name := by
  obtain ⟨r, t, q, g, hcell, hid, hq, hm, rfl⟩ := he
  obtain ⟨b, hb, rfl, -, hg⟩ := h.exists_call hnd hcell hid
  obtain ⟨a, ha, hslot, hmeasures⟩ := h.exists_measures hnd hm
  have hsub := h.sublist_of_slot_lt hnd ha hb hslot hmeasures.1 (qubits_of_mem_gates hg q hq)
  exact ⟨a, b, q, hsub, hmeasures, g, hg, hid, hq, rfl⟩

/-- A call on a qubit that an earlier call measured leaves a gate on a measured qubit. -/
lemma Runs.misuse_of_reuse {a b : Call × Nat} {q : Nat} (hsub : [a, b].Sublist calls)
    (ha : s.Measures a q) (hb : b.1.Acts q) : ∃ e, s.Misuse e := by
  obtain ⟨g, hg, hid, hq⟩ := hb
  have hmem : b ∈ calls := hsub.subset (by simp)
  obtain ⟨r, -, hcell⟩ := h.exists_cell hnd hmem hg
  have hslot : a.2 < b.2 := by
    have hpair := (h.pairwise_slot hnd).sublist hsub
    rw [List.pairwise_pair] at hpair
    exact hpair ⟨q, ha.1, qubits_of_mem_gates hg q hq⟩
  exact ⟨_, r, b.2, q, g, hcell, hid, hq, measured_iff.mpr ⟨a.2, hslot, ha.2⟩, rfl⟩

/-- A call measures what it measures on its own. -/
lemma Runs.measures_of_alone (hs : s.Sound) {p : Call × Nat} (hp : p ∈ calls) {m : Gate}
    (hm : m ∈ p.1.gates) {q : Nat} (halone : m.MeasuresAlone q) : s.Measures p q := by
  obtain ⟨r, hr, hcell⟩ := h.exists_cell hnd hp hm
  have hrm := hs.owner hcell
  rw [halone.2, List.mem_singleton] at hrm
  subst hrm
  exact ⟨hr, by rw [hcell]; exact halone.1⟩

/-- A call has the slot to itself on each of its rows. -/
lemma Runs.call_unique {a b : Call × Nat} (ha : a ∈ calls) (hb : b ∈ calls) (hslot : a.2 = b.2)
    {q : Nat} (hqa : q ∈ a.1.qubits) (hqb : q ∈ b.1.qubits) : a = b := by
  by_contra hne
  have hpairs := h.pairwise_slot hnd
  have hsub := pair_sublist_of_pairwise hpairs ha hb hne fun hba =>
    Nat.ne_of_lt (hba ⟨q, hqb, hqa⟩) hslot.symm
  have hlt := List.pairwise_pair.mp (hpairs.sublist hsub) ⟨q, hqa, hqb⟩
  exact Nat.ne_of_lt hlt hslot

/-- A call measures nothing that it does not name in a measurement. -/
lemma Runs.exists_measurement (hs : s.Sound) {p : Call × Nat} (hp : p ∈ calls) {q : Nat}
    (hm : s.Measures p q) : ∃ m ∈ p.1.gates, m.isMeasure = true ∧ q ∈ m.qubits := by
  obtain ⟨a, ha, hslot, hqa, m, hma, hmeasure, hcell⟩ := h.exists_measuring_call hnd hm.2
  obtain rfl := h.call_unique hnd ha hp hslot hqa hm.1
  exact ⟨m, hma, hmeasure, hs.owner hcell⟩

end Calls

/-- **A schedule becomes no circuit exactly when a qubit is used after its measurement**: a call
measures it, and a later one has a gate that does something to it. The error names such a qubit, and
the slot and the gate of the later call. A call measures all qubits that it measures on their own,
and none that its measurements do not name. -/
theorem flatten_error_iff {n clbits : Nat} {calls : List (Call × Nat)} {s : Schedule}
    (h : Runs (empty n) calls s) (hnd : ∀ p ∈ calls, p.1.qubits.Nodup)
    (hid : ∀ p ∈ calls, ∀ g ∈ p.1.gates, g.isIdentity = true → g.qubits.length = 1) :
    ((∃ q t name, s.flatten clbits = .error (.afterMeasurement q t name)) ↔
        ∃ a b q, [a, b].Sublist calls ∧ s.Measures a q ∧ b.1.Acts q) ∧
      (∀ e, s.flatten clbits = .error e →
        ∃ a b q, [a, b].Sublist calls ∧ s.Measures a q ∧
          ∃ g ∈ b.1.gates, g.isIdentity = false ∧ q ∈ g.qubits ∧
            e = .afterMeasurement q b.2 g.name) ∧
      ∀ p ∈ calls, ∀ q, (∀ m ∈ p.1.gates, m.MeasuresAlone q → s.Measures p q) ∧
        (s.Measures p q → ∃ m ∈ p.1.gates, m.isMeasure = true ∧ q ∈ m.qubits) := by
  have hs := h.divided hnd hid
  have herror : ∀ e, s.flatten clbits = .error e → _ :=
    fun e he => h.exists_reuse hnd (flatten_misuse hs he)
  refine ⟨⟨?_, ?_⟩, herror, fun p hp q => ⟨fun m hm => h.measures_of_alone hnd hs.toSound hp hm,
    h.exists_measurement hnd hs.toSound hp⟩⟩
  · rintro ⟨q, t, name, he⟩
    obtain ⟨a, b, r, hsub, hmeasures, g, hg, hidg, hr, -⟩ := herror _ he
    exact ⟨a, b, r, hsub, hmeasures, g, hg, hidg, hr⟩
  · rintro ⟨a, b, q, hsub, hmeasures, hacts⟩
    obtain ⟨e, hmisuse⟩ := h.misuse_of_reuse hnd hsub hmeasures hacts
    cases hflat : s.flatten clbits with
    | ok circuit => exact absurd hmisuse ((flatten_eq_ok_iff.mp hflat).1.not_misuse e)
    | error e' =>
      obtain ⟨a, b, r, -, -, g, -, -, -, rfl⟩ := herror e' hflat
      exact ⟨_, _, _, rfl⟩

/-- A measurement, a gate on another qubit, and one on both, each with the slot it gets. -/
def reusingCalls : List (Call × Nat) :=
  [(.measurement [(0, 0)] none, 0), (.unitary { kind := .standard .h, qubits := [1] }, 1),
    (.unitary { kind := .standard .cnot, qubits := [1, 0] }, 2)]

/-- The last gate stands on a row that is not measured, and fails all the same. -/
theorem reusingCalls_error :
    ∃ s, Runs (empty 2) reusingCalls s ∧
      (∃ q t name, s.flatten 1 = .error (.afterMeasurement q t name)) ∧
      s.flatten 1 = .error (.afterMeasurement 0 2 "CNOT") := by
  have hruns : Runs (empty 2) reusingCalls _ := .cons rfl (.cons rfl (.cons rfl (.nil _)))
  have h := @flatten_error_iff 2 1 _ _ hruns (by decide) (by decide)
  have hmeasures := (h.2.2 _ List.mem_cons_self 0).1 _ List.mem_cons_self (by decide)
  have hacts : (Call.unitary { kind := .standard .cnot, qubits := [1, 0] }).Acts 0 :=
    ⟨_, List.mem_cons_self, rfl, by simp⟩
  have hsub : [reusingCalls[0], reusingCalls[2]].Sublist reusingCalls :=
    .cons_cons _ (.cons _ (.refl _))
  exact ⟨_, hruns, h.1.mpr ⟨_, _, 0, hsub, hmeasures, hacts⟩, rfl⟩

/-- The row of the second qubit stores the measurement: using the first one again is no error. -/
theorem sharedMeasurement_reused :
    (∀ c ∈ sharedMeasurement, c.qubits.Nodup ∧
        ∀ g ∈ c.gates, g.isIdentity = true → g.qubits.length = 1) ∧
      ∃ s, Runs (empty 2) (sharedMeasurement.zip [0, 1, 2]) s ∧
        (∃ m ∈ sharedMeasurement[1].gates, m.isMeasure = true ∧ 0 ∈ m.qubits) ∧
        sharedMeasurement[2].Acts 0 ∧ ∃ circuit, s.flatten 1 = .ok circuit := by
  refine ⟨by decide, _, .cons rfl (.cons rfl (.cons rfl (.nil _))), ?_, ?_, _, rfl⟩
  · exact ⟨_, List.mem_cons_self, rfl, by simp⟩
  · exact ⟨_, List.mem_cons_self, rfl, by simp⟩

end QCircuit.Schedule
