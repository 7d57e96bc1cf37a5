import Mathlib.Data.List.Perm.Basic
import QCircuit.Proofs.Schedule.Slices

/-!
Sequences of calls to the scheduler.

The rows keep books on the gates: a gate stands in the row of one of its qubits, all its rows are
past its slot, and no two gates of a slot share a qubit. So a call puts its gates behind everything
that its qubits have done before, and the circuit has the gates of the calls, on every qubit in the
order of the calls.
-/

namespace QCircuit

/-- Whether a gate acts on a qubit. -/
def Gate.names (g : Gate) (q : Nat) : Bool := q ∈ g.qubits

/-- The gate in a cell, if it does something. -/
def Cell.active : Cell → Option Gate
  | .gate g => if g.isIdentity then none else some g
  | .reserved => none

lemma Cell.active_eq_some {c : Cell} {g : Gate} :
    c.active = some g ↔ c = .gate g ∧ g.isIdentity = false := by
  cases c with
  | reserved => simp [Cell.active]
  | gate g' =>
    by_cases hid : g'.isIdentity = true <;> simp [Cell.active, hid]
    · rintro rfl
      exact hid
    · rintro rfl
      simpa using hid

/-- The gates that do something. -/
def nonIdentity (gs : List Gate) : List Gate := gs.filter (!·.isIdentity)

@[simp] lemma nonIdentity_append (xs ys : List Gate) :
    nonIdentity (xs ++ ys) = nonIdentity xs ++ nonIdentity ys := List.filter_append ..

/-- Two lists of gates that are the same program: the same gates, and on every qubit the same
order. -/
structure Agree (xs ys : List Gate) : Prop where
  perm : xs.Perm ys
  onQubit : ∀ q, xs.filter (·.names q) = ys.filter (·.names q)

namespace Agree

lemma refl (xs : List Gate) : Agree xs xs := ⟨.refl _, fun _ => rfl⟩

lemma trans {xs ys zs : List Gate} (h₁ : Agree xs ys) (h₂ : Agree ys zs) : Agree xs zs :=
  ⟨h₁.perm.trans h₂.perm, fun q => (h₁.onQubit q).trans (h₂.onQubit q)⟩

lemma append {xs ys xs' ys' : List Gate} (h₁ : Agree xs ys) (h₂ : Agree xs' ys') :
    Agree (xs ++ xs') (ys ++ ys') := by
  refine ⟨h₁.perm.append h₂.perm, fun q => ?_⟩
  rw [List.filter_append, List.filter_append, h₁.onQubit, h₂.onQubit]

end Agree

namespace Schedule

/-- What the rows say about the gates in them. -/
structure Sound (s : Schedule) : Prop where
  owner : ∀ {q t g}, s.cellAt q t = .gate g → q ∈ g.qubits
  within : ∀ {q t g}, s.cellAt q t = .gate g → g = .identity q ∨ ∀ o ∈ g.qubits, t < s.free o
  apart : ∀ {q q' t g g'}, s.cellAt q t = .gate g → s.cellAt q' t = .gate g' → q ≠ q' →
    ∀ o ∈ g.qubits, o ∉ g'.qubits

lemma sound_empty (n : Nat) : (empty n).Sound := by
  have hgate : ∀ {q t g}, (empty n).cellAt q t = .gate g → g = .identity q := by
    intro q t g h
    rw [cellAt_empty] at h
    exact (Cell.gate.inj h).symm
  refine ⟨?_, ?_, ?_⟩
  · intro q t g h
    simp [hgate h, Gate.identity]
  · intro q t g h
    exact Or.inl (hgate h)
  · intro q q' t g g' h h' hne o ho ho'
    rw [hgate h] at ho
    rw [hgate h'] at ho'
    simp only [Gate.identity, List.mem_singleton] at ho ho'
    omega

/-- The gates in the cells of a call. -/
lemma callCell_gate {s : Schedule} {c : Call} {q : Nat} {g : Gate} (hq : q ∈ c.qubits)
    (h : s.callCell c q = .gate g) :
    q ∈ g.qubits ∧ (∀ o ∈ g.qubits, o ∈ c.qubits) ∧
      ∀ q' ∈ c.qubits, ∀ g', q' ≠ q → s.callCell c q' = .gate g' →
        ∀ o ∈ g.qubits, o ∉ g'.qubits := by
  cases c with
  | unitary g₀ =>
    have howner : ∀ {q g}, s.unitaryCell g₀ q = .gate g → q = s.ownerRow g₀.qubits ∧ g = g₀ := by
      intro q g h
      unfold unitaryCell at h
      split at h
      · exact ⟨by assumption, (Cell.gate.inj h).symm⟩
      · simp at h
    obtain ⟨hrow, rfl⟩ := howner h
    exact ⟨hq, fun o ho => ho, fun q' _ g' hne h' => absurd ((howner h').1.trans hrow.symm) hne⟩
  | measurement targets condition =>
    have hgate : ∀ {q g}, measureCell targets condition q = .gate g → g.qubits = [q] := by
      intro q g h
      unfold measureCell at h
      rcases hl : targets.lookup q with _ | c <;> rw [hl] at h
      · simp at h
      · obtain rfl := Cell.gate.inj h
        rfl
    have hg := hgate h
    refine ⟨by simp [hg], fun o ho => ?_, fun q' _ g' hne h' o ho ho' => ?_⟩
    · rw [hg, List.mem_singleton] at ho
      exact ho ▸ hq
    · rw [hg, List.mem_singleton] at ho
      rw [hgate h', List.mem_singleton] at ho'
      exact hne (ho'.symm.trans ho)

/-- A gate that stands at or beyond the free slot of one of its qubits is only filling. -/
lemma Sound.eq_identity {s : Schedule} (hs : s.Sound) {q t o : Nat} {g : Gate}
    (h : s.cellAt q t = .gate g) (ho : o ∈ g.qubits) (hfree : s.free o ≤ t) :
    g = .identity q ∧ o = q := by
  rcases hs.within h with rfl | hlt
  · exact ⟨rfl, by simpa [Gate.identity] using ho⟩
  · have := hlt o ho
    omega

section Step

variable {s s' : Schedule} {c : Call} {slot : Nat}

lemma Fills.free_le {qs : List Nat} {cell : Nat → Cell} {barrier : Bool}
    (hf : Fills s s' qs slot cell barrier) (q : Nat) : s.free q ≤ s'.free q := by
  by_cases hq : q ∈ qs
  · have := hf.reached q hq
    have := hf.free_mem q hq
    omega
  · by_cases hlt : q < s.rows.length
    · rw [hf.free_rest q hlt hq]
      split
      · exact Nat.le_max_left _ _
      · exact Nat.le_refl _
    · rw [free_outside (Nat.le_of_not_lt hlt)]
      exact Nat.zero_le _

/-- **A call keeps the books.** -/
theorem Sound.fills (hs : s.Sound)
    (hf : Fills s s' c.qubits slot (s.callCell c) c.isMeasurement) : s'.Sound := by
  -- every gate is a new one in the slot of the call, or an old one
  have hcases : ∀ {q t g}, s'.cellAt q t = .gate g →
      (q ∈ c.qubits ∧ t = slot ∧ s.callCell c q = .gate g) ∨
        (¬(q ∈ c.qubits ∧ t = slot) ∧ s.cellAt q t = .gate g) := by
    intro q t g h
    rw [hf.cellAt] at h
    split at h
    · next hq => exact Or.inl ⟨hq.1, hq.2, h⟩
    · next hq => exact Or.inr ⟨hq, h⟩
  -- an old gate in the slot of the call has none of its qubits
  have hold : ∀ {q g}, ¬(q ∈ c.qubits ∧ slot = slot) → s.cellAt q slot = .gate g →
      ∀ o ∈ g.qubits, o ∉ c.qubits := by
    intro q g hq h o ho ho'
    obtain ⟨-, rfl⟩ := hs.eq_identity h ho (hf.reached o ho')
    exact hq ⟨ho', rfl⟩
  refine ⟨?_, ?_, ?_⟩
  · intro q t g h
    rcases hcases h with ⟨hq, -, hc⟩ | ⟨-, h⟩
    · exact (callCell_gate hq hc).1
    · exact hs.owner h
  · intro q t g h
    rcases hcases h with ⟨hq, rfl, hc⟩ | ⟨-, h⟩
    · refine Or.inr fun o ho => ?_
      rw [hf.free_mem o ((callCell_gate hq hc).2.1 o ho)]
      omega
    · rcases hs.within h with hid | hlt
      · exact Or.inl hid
      · exact Or.inr fun o ho => Nat.lt_of_lt_of_le (hlt o ho) (hf.free_le o)
  · intro q q' t g g' h h' hne o ho
    rcases hcases h with ⟨hq, rfl, hc⟩ | ⟨hq, h⟩ <;>
      rcases hcases h' with ⟨hq', ht, hc'⟩ | ⟨hq', h'⟩
    · exact (callCell_gate hq hc).2.2 q' hq' g' (Ne.symm hne) hc' o ho
    · exact fun ho' => hold hq' h' o ho' ((callCell_gate hq hc).2.1 o ho)
    · subst ht
      exact fun ho' => hold hq h o ho ((callCell_gate hq' hc').2.1 o ho')
    · exact hs.apart h h' hne o ho

lemma Sound.perform (hs : s.Sound) (h : s.perform c = .ok (s', slot)) (hnd : c.qubits.Nodup) :
    s'.Sound :=
  hs.fills (perform_fills h hnd)

end Step

/-! ### The gates of a schedule -/

/-- The gate in the cell of a row, if it does something. -/
def active (s : Schedule) (t q : Nat) : Option Gate := (s.cellAt q t).active

lemma active_of_idle {s : Schedule} {t q : Nat} (h : s.cellAt q t = idle q) :
    s.active t q = none := by
  simp [active, Cell.active, h, idle, Gate.isIdentity, Gate.identity, Gate.Kind.isIdentity]

/-- The gates of a slot that do something, by rows. -/
def workAt (s : Schedule) (t : Nat) : List Gate :=
  (List.range s.rows.length).filterMap (s.active t)

/-- The gates of the slots below `n` that do something. -/
def work (s : Schedule) (n : Nat) : List Gate := (List.range n).flatMap s.workAt

lemma work_succ (s : Schedule) (n : Nat) : s.work (n + 1) = s.work n ++ s.workAt n := by
  simp [work, List.range_succ]

lemma workAt_of_height_le {s : Schedule} {t : Nat} (h : s.height ≤ t) : s.workAt t = [] := by
  refine List.filterMap_eq_nil_iff.mpr fun q _ => ?_
  exact active_of_idle (cellAt_of_height_le h q)

/-- Slots beyond the last one in use add nothing. -/
lemma work_of_height_le {s : Schedule} {n : Nat} (h : s.height ≤ n) :
    s.work n = s.work s.height := by
  induction n with
  | zero => rw [Nat.le_zero.mp h]
  | succ n ih =>
    rcases Nat.lt_or_ge n s.height with hlt | hle
    · rw [show s.height = n + 1 by omega]
    · rw [work_succ, workAt_of_height_le hle, List.append_nil, ih hle]

/-- A legal schedule emits every gate that does something. -/
lemma emitted_filter {s : Schedule} (hl : s.Legal) (t q : Nat) :
    (s.emitted t q).filter (!·.isIdentity) = s.active t q := by
  have hlegal := hl t q
  unfold emitted active Cell.active
  cases hc : s.cellAt q t with
  | reserved => simp
  | gate g =>
    have := hlegal g hc
    by_cases hm : s.measured q t = true <;> by_cases hid : g.isIdentity = true <;>
      simp_all [Option.filter]

/-- The gates of a slice that do something are those in the cells of its slot. -/
lemma nonIdentity_sliceRows {s : Schedule} (hl : s.Legal) (t : Nat) :
    nonIdentity ((s.sliceRows t).map (·.1)) = s.workAt t := by
  rw [nonIdentity, map_fst_sliceRows, List.filter_filterMap, workAt]
  exact List.filterMap_congr fun q _ => emitted_filter hl t q

/-- **The gates of the circuit that do something are those in the cells, slot by slot.** -/
theorem nonIdentity_gates {s : Schedule} {clbits : Nat} {c : Circuit}
    (h : s.flatten clbits = .ok c) : nonIdentity c.gates = s.work s.height := by
  obtain ⟨hl, rfl⟩ := flatten_eq_ok_iff.mp h
  have hslice : ∀ t, ((s.sliceRows t).map (·.1)).filter (!·.isIdentity) = s.workAt t :=
    nonIdentity_sliceRows hl
  simp only [nonIdentity, Circuit.gates, ← List.flatMap_def, List.filter_flatMap, hslice]
  rfl

/-! ### The gates of a call -/

lemma filterMap_single {f : Nat → Option Gate} {qs : List Nat} (hnd : qs.Nodup) {r : Nat}
    (hr : r ∈ qs) (hf : ∀ q ∈ qs, q ≠ r → f q = none) : qs.filterMap f = (f r).toList := by
  induction qs with
  | nil => simp at hr
  | cons a qs ih =>
    obtain ⟨ha, hnd⟩ := List.nodup_cons.mp hnd
    by_cases har : a = r
    · subst har
      have hrest : qs.filterMap f = [] := by
        refine List.filterMap_eq_nil_iff.mpr fun q hq => hf q (List.mem_cons_of_mem _ hq) ?_
        exact fun hc => ha (hc ▸ hq)
      rw [List.filterMap_cons, hrest]
      cases f a <;> rfl
    · rw [List.filterMap_cons, hf a List.mem_cons_self har]
      refine ih hnd (List.mem_of_ne_of_mem (Ne.symm har) hr) fun q hq => ?_
      exact hf q (List.mem_cons_of_mem _ hq)

/-- The gates in the cells of a call are the gates it asks for. -/
lemma filterMap_callCell {s : Schedule} {c : Call} (hnd : c.qubits.Nodup)
    (hne : c.isMeasurement = false → c.qubits ≠ []) :
    c.qubits.filterMap (fun q => (s.callCell c q).active) = nonIdentity c.gates := by
  cases c with
  | unitary g =>
    rw [filterMap_single hnd (s.ownerRow_mem (hne rfl))]
    · by_cases hid : g.isIdentity = true <;>
        simp [callCell, unitaryCell, Cell.active, Call.qubits, Call.gates, nonIdentity, hid]
    · intro q _ hq
      rw [callCell, unitaryCell, if_neg (show q ≠ s.ownerRow g.qubits from hq)]
      rfl
  | measurement targets condition =>
    have hcell : ∀ p ∈ targets, (measureCell targets condition p.1).active =
        some (.measure p.1 p.2 condition) := by
      intro p hp
      rw [measureCell, lookup_of_mem hnd hp]
      rfl
    have hall : nonIdentity (targets.map fun p => Gate.measure p.1 p.2 condition) =
        targets.map fun p => Gate.measure p.1 p.2 condition := by
      refine List.filter_eq_self.mpr fun g hg => ?_
      obtain ⟨p, -, rfl⟩ := List.mem_map.mp hg
      rfl
    simp only [Call.qubits, Call.gates, callCell, hall, List.filterMap_map]
    rw [← List.filterMap_eq_map]
    exact List.filterMap_congr hcell

/-- The gates of a call use only its qubits. -/
lemma qubits_of_mem_gates {c : Call} {g : Gate} (hg : g ∈ c.gates) :
    ∀ o ∈ g.qubits, o ∈ c.qubits := by
  cases c with
  | unitary g' =>
    obtain rfl : g = g' := by simpa [Call.gates] using hg
    exact fun o ho => ho
  | measurement targets condition =>
    obtain ⟨p, hp, rfl⟩ := List.mem_map.mp hg
    intro o ho
    obtain rfl : o = p.1 := by simpa [Gate.measure] using ho
    exact List.mem_map_of_mem hp

lemma nodup_of_mem_gates {c : Call} {g : Gate} (hnd : c.qubits.Nodup) (hg : g ∈ c.gates) :
    g.qubits.Nodup := by
  cases c with
  | unitary g₀ =>
    obtain rfl := List.mem_singleton.mp hg
    exact hnd
  | measurement targets condition =>
    obtain ⟨p, -, rfl⟩ := List.mem_map.mp hg
    simp [Gate.measure]

lemma filter_gates_eq_nil {c : Call} {q : Nat} (hq : q ∉ c.qubits) :
    (nonIdentity c.gates).filter (·.names q) = [] := by
  refine List.filter_eq_nil_iff.mpr fun g hg hn => hq ?_
  exact qubits_of_mem_gates (List.mem_of_mem_filter hg) q (by simpa [Gate.names] using hn)

/-- A call has at most one gate on a qubit. -/
lemma length_gates_names_le (c : Call) (hnd : c.qubits.Nodup) (q : Nat) :
    ((nonIdentity c.gates).filter (·.names q)).length ≤ 1 := by
  have hsub : ((nonIdentity c.gates).filter (·.names q)).length ≤
      (c.gates.filter (·.names q)).length :=
    ((List.filter_sublist).filter _).length_le
  refine Nat.le_trans hsub ?_
  cases c with
  | unitary g => exact Nat.le_trans (List.length_filter_le _ _) (Nat.le_refl 1)
  | measurement targets condition =>
    have hcount :
        ((targets.map fun p => Gate.measure p.1 p.2 condition).filter (·.names q)).length =
          (targets.map (·.1)).count q := by
      rw [← List.countP_eq_length_filter, List.countP_map, List.count, List.countP_map]
      refine List.countP_congr fun p _ => ?_
      simp [Gate.names, Gate.measure, @eq_comm _ q]
    rw [Call.gates, hcount]
    exact List.nodup_iff_count_le_one.mp hnd q

/-- Beyond its free slot a qubit has no gates. -/
lemma Sound.filter_workAt_eq_nil {s : Schedule} (hs : s.Sound) {q t : Nat} (hfree : s.free q ≤ t) :
    (s.workAt t).filter (·.names q) = [] := by
  refine List.filter_eq_nil_iff.mpr fun g hg hn => ?_
  obtain ⟨r, -, hr⟩ := List.mem_filterMap.mp hg
  obtain ⟨hcell, hid⟩ := Cell.active_eq_some.mp hr
  obtain ⟨rfl, -⟩ := hs.eq_identity hcell (by simpa [Gate.names] using hn) hfree
  simp [Gate.isIdentity, Gate.identity, Gate.Kind.isIdentity] at hid

section Step

variable {s s' : Schedule} {c : Call} {slot : Nat}
  (hf : Fills s s' c.qubits slot (s.callCell c) c.isMeasurement) (hnd : c.qubits.Nodup)
  (hne : c.isMeasurement = false → c.qubits ≠ [])
include hf

lemma Fills.active_eq (t q : Nat) :
    s'.active t q = if q ∈ c.qubits ∧ t = slot then (s.callCell c q).active else s.active t q := by
  rw [active, hf.cellAt]
  split <;> rfl

lemma Fills.workAt_ne {t : Nat} (ht : t ≠ slot) : s'.workAt t = s.workAt t := by
  rw [workAt, workAt, hf.length]
  refine List.filterMap_congr fun q _ => ?_
  rw [hf.active_eq, if_neg fun h => ht h.2]

include hnd hne

/-- The slot of the call gets the gates of the call. -/
lemma Fills.workAt_slot : (s'.workAt slot).Perm (s.workAt slot ++ nonIdentity c.gates) := by
  have hsplit : ((List.range s.rows.length).filter (· ∈ c.qubits) ++
      (List.range s.rows.length).filter (fun q => !decide (q ∈ c.qubits))).Perm
        (List.range s.rows.length) := List.filter_append_perm _ _
  have hqs : ((List.range s.rows.length).filter (· ∈ c.qubits)).Perm c.qubits := by
    refine (List.perm_ext_iff_of_nodup (List.nodup_range.filter _) hnd).mpr fun q => ?_
    simp only [List.mem_filter, List.mem_range, decide_eq_true_eq]
    exact ⟨fun h => h.2, fun h => ⟨hf.inRange q h, h⟩⟩
  set rest := (List.range s.rows.length).filter (fun q => !decide (q ∈ c.qubits)) with hrest
  have hnew : c.qubits.filterMap (s'.active slot) = nonIdentity c.gates := by
    rw [← filterMap_callCell hnd hne]
    refine List.filterMap_congr fun q hq => ?_
    rw [hf.active_eq, if_pos ⟨hq, rfl⟩]
  have hold : c.qubits.filterMap (s.active slot) = [] :=
    List.filterMap_eq_nil_iff.mpr fun q hq => active_of_idle (cellAt_of_free_le (hf.reached q hq))
  have hsame : rest.filterMap (s'.active slot) = rest.filterMap (s.active slot) := by
    refine List.filterMap_congr fun q hq => ?_
    have hq' : q ∉ c.qubits := by simpa using (List.mem_filter.mp hq).2
    rw [hf.active_eq, if_neg fun h => hq' h.1]
  have hparts : ∀ f : Nat → Option Gate, ((List.range s.rows.length).filterMap f).Perm
      (rest.filterMap f ++ c.qubits.filterMap f) := by
    intro f
    refine (hsplit.symm.filterMap f).trans ?_
    rw [List.filterMap_append]
    exact List.perm_append_comm.trans (.append_left _ (hqs.filterMap f))
  have h₁ := hparts (s'.active slot)
  have h₂ := hparts (s.active slot)
  rw [hnew, hsame] at h₁
  rw [hold, List.append_nil] at h₂
  rw [workAt, hf.length]
  exact h₁.trans (.append_right _ h₂.symm)

/-- On every qubit, the slot of the call gets the gates of the call last. -/
lemma Fills.filter_workAt_slot (hs : s.Sound) (q : Nat) :
    (s'.workAt slot).filter (·.names q) =
      (s.workAt slot).filter (·.names q) ++ (nonIdentity c.gates).filter (·.names q) := by
  by_cases hq : q ∈ c.qubits
  · have hperm := (hf.workAt_slot hnd hne).filter (·.names q)
    rw [List.filter_append] at hperm
    rw [hs.filter_workAt_eq_nil (hf.reached q hq), List.nil_append] at hperm ⊢
    have hlen := length_gates_names_le c hnd q
    generalize (nonIdentity c.gates).filter (·.names q) = new at hperm hlen ⊢
    rcases new with _ | ⟨g, _ | ⟨g', gs⟩⟩
    · exact hperm.eq_nil
    · exact List.perm_singleton.mp hperm
    · simp at hlen
  · rw [filter_gates_eq_nil hq, List.append_nil, workAt, workAt, List.filter_filterMap,
      List.filter_filterMap, hf.length]
    refine List.filterMap_congr fun r _ => ?_
    rw [hf.active_eq]
    split
    · next hr =>
      rw [active_of_idle (cellAt_of_free_le (hr.2 ▸ hf.reached r hr.1))]
      cases ha : (s.callCell c r).active with
      | none => rfl
      | some g =>
        have hnot : g.names q = false := by
          have hg := (callCell_gate hr.1 (Cell.active_eq_some.mp ha).1).2.1
          simpa [Gate.names] using fun h => hq (hg q h)
        simp [Option.filter, hnot]
    · rfl

/-- **A call puts its gates behind what its qubits have done.** -/
theorem Fills.work_agree (hs : s.Sound) {n : Nat} (hn : slot < n) :
    Agree (s'.work n) (s.work n ++ nonIdentity c.gates) := by
  obtain ⟨m, rfl⟩ : ∃ m, n = slot + 1 + m := ⟨n - (slot + 1), by omega⟩
  have hparts : ∀ r : Schedule, r.work (slot + 1 + m) = r.work slot ++ r.workAt slot ++
      (List.range m).flatMap (fun i => r.workAt (slot + 1 + i)) := by
    intro r
    simp [work, List.range_add, List.range_succ, List.flatMap_map]
  have hbelow : s'.work slot = s.work slot := by
    refine List.flatMap_congr fun t ht => hf.workAt_ne ?_
    have := List.mem_range.mp ht
    omega
  have habove : (List.range m).flatMap (fun i => s'.workAt (slot + 1 + i)) =
      (List.range m).flatMap fun i => s.workAt (slot + 1 + i) :=
    List.flatMap_congr fun i _ => hf.workAt_ne (by omega)
  rw [hparts s', hparts s, hbelow, habove]
  set above := (List.range m).flatMap fun i => s.workAt (slot + 1 + i) with hdef
  refine ⟨?_, fun q => ?_⟩
  · have h₁ : (s'.workAt slot ++ above).Perm (s.workAt slot ++ above ++ nonIdentity c.gates) := by
      refine ((hf.workAt_slot hnd hne).append_right above).trans ?_
      rw [List.append_assoc, List.append_assoc]
      exact .append_left _ List.perm_append_comm
    simpa [List.append_assoc] using h₁.append_left (s.work slot)
  · simp only [List.filter_append, hf.filter_workAt_slot hnd hne hs q]
    by_cases hq : q ∈ c.qubits
    · have hnil : above.filter (·.names q) = [] := by
        rw [hdef, List.filter_flatMap]
        refine List.flatMap_eq_nil_iff.mpr fun i _ => hs.filter_workAt_eq_nil ?_
        have := hf.reached q hq
        omega
      simp [hnil]
    · simp [filter_gates_eq_nil hq]

end Step

/-! ### Runs -/

/-- Makes calls one after the other, all of which must succeed. -/
def performAll (s : Schedule) : List Call → Except CompileError Schedule
  | [] => .ok s
  | c :: cs => do performAll (← s.perform c).1 cs

@[simp] lemma performAll_nil (s : Schedule) : s.performAll [] = .ok s := rfl

lemma performAll_cons_ok {s s' : Schedule} {c : Call} {cs : List Call} :
    s.performAll (c :: cs) = .ok s' ↔
      ∃ s₁ slot, s.perform c = .ok (s₁, slot) ∧ s₁.performAll cs = .ok s' := by
  simp [performAll, bind_eq_ok]

lemma performAll_append_ok {s s' : Schedule} {cs ds : List Call} :
    s.performAll (cs ++ ds) = .ok s' ↔
      ∃ s₁, s.performAll cs = .ok s₁ ∧ s₁.performAll ds = .ok s' := by
  induction cs generalizing s with
  | nil => simp
  | cons c cs ih =>
    simp only [List.cons_append, performAll_cons_ok, ih]
    constructor
    · rintro ⟨s₁, slot, h₁, s₂, h₂, h₃⟩
      exact ⟨s₂, ⟨s₁, slot, h₁, h₂⟩, h₃⟩
    · rintro ⟨s₂, ⟨s₁, slot, h₁, h₂⟩, h₃⟩
      exact ⟨s₁, slot, h₁, s₂, h₂, h₃⟩

lemma length_performAll {s s' : Schedule} {cs : List Call} (h : s.performAll cs = .ok s') :
    s'.rows.length = s.rows.length := by
  induction cs generalizing s with
  | nil =>
    obtain rfl := Except.ok.inj h
    rfl
  | cons c cs ih =>
    obtain ⟨s₁, slot, h₁, h₂⟩ := performAll_cons_ok.mp h
    rw [ih h₂, length_perform h₁]

lemma Sound.performAll {s s' : Schedule} {cs : List Call} (hs : s.Sound)
    (h : s.performAll cs = .ok s') (hnd : ∀ c ∈ cs, c.qubits.Nodup) : s'.Sound := by
  induction cs generalizing s with
  | nil =>
    obtain rfl := Except.ok.inj h
    exact hs
  | cons c cs ih =>
    obtain ⟨s₁, slot, h₁, h₂⟩ := performAll_cons_ok.mp h
    exact ih (hs.perform h₁ (hnd c List.mem_cons_self)) h₂
      fun e he => hnd e (List.mem_cons_of_mem _ he)

lemma performAll_free_le {s s' : Schedule} {cs : List Call} (h : s.performAll cs = .ok s')
    (hnd : ∀ c ∈ cs, c.qubits.Nodup) (q : Nat) : s.free q ≤ s'.free q := by
  induction cs generalizing s with
  | nil =>
    obtain rfl := Except.ok.inj h
    exact Nat.le_refl _
  | cons c cs ih =>
    obtain ⟨s₁, slot, h₁, h₂⟩ := performAll_cons_ok.mp h
    have hf := perform_fills h₁ (hnd c List.mem_cons_self)
    exact Nat.le_trans (hf.free_le q) (ih h₂ fun d hd => hnd d (List.mem_cons_of_mem _ hd))

lemma perform_qubits_ne_nil {s s' : Schedule} {c : Call} {slot : Nat}
    (h : s.perform c = .ok (s', slot)) : c.isMeasurement = false → c.qubits ≠ [] := by
  cases c with
  | unitary g =>
    intro _ hnil
    have := (place_ok h).1.1
    simp [show g.qubits = [] from hnil] at this
  | measurement targets condition => simp [Call.isMeasurement]

lemma performAll_work {s s' : Schedule} {cs : List Call} (h : s.performAll cs = .ok s')
    (hs : s.Sound) (hnd : ∀ c ∈ cs, c.qubits.Nodup) {n : Nat} (hn : s'.height < n) :
    Agree (s'.work n) (s.work n ++ nonIdentity (cs.flatMap Call.gates)) := by
  induction cs generalizing s with
  | nil =>
    obtain rfl := Except.ok.inj h
    simpa [nonIdentity] using Agree.refl (s.work n)
  | cons c cs ih =>
    obtain ⟨s₁, slot, h₁, h₂⟩ := performAll_cons_ok.mp h
    have hndc := hnd c List.mem_cons_self
    have hndcs : ∀ d ∈ cs, d.qubits.Nodup := fun d hd => hnd d (List.mem_cons_of_mem _ hd)
    have hf := perform_fills h₁ hndc
    have hslot : slot < n := by
      rcases hq : c.qubits with _ | ⟨q, qs⟩
      · rw [perform_slot h₁, hq]
        exact Nat.lt_of_le_of_lt (Nat.zero_le _) hn
      · have h₃ := hf.free_mem q (by simp [hq])
        have h₄ := performAll_free_le h₂ hndcs q
        have h₅ := s'.free_le_height q
        omega
    have hstep := hf.work_agree hndc (perform_qubits_ne_nil h₁) hs hslot
    have hrest := ih h₂ (hs.fills hf) hndcs
    refine hrest.trans ?_
    rw [List.flatMap_cons, nonIdentity_append, ← List.append_assoc]
    exact hstep.append (.refl _)

/-- **A schedule of calls on distinct qubits is the program of the calls**: its circuit has their
gates, on every qubit in their order. -/
theorem flatten_agree {n clbits : Nat} {cs : List Call} {s : Schedule} {c : Circuit}
    (h : (empty n).performAll cs = .ok s) (hnd : ∀ d ∈ cs, d.qubits.Nodup)
    (hc : s.flatten clbits = .ok c) :
    Agree (nonIdentity c.gates) (nonIdentity (cs.flatMap Call.gates)) := by
  have hwork := performAll_work h (sound_empty n) hnd (Nat.lt_succ_self s.height)
  have hempty : (empty n).work (s.height + 1) = [] := by
    refine List.flatMap_eq_nil_iff.mpr fun t _ => List.filterMap_eq_nil_iff.mpr fun q _ => ?_
    exact active_of_idle (cellAt_empty n q t)
  rw [hempty, List.nil_append, work_of_height_le (Nat.le_succ _)] at hwork
  rwa [nonIdentity_gates hc]

end Schedule
end QCircuit
