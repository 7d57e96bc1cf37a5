import QCircuit.Proofs.Schedule.Runs
import QCircuit.Proofs.Schedule.Slices

/-!
What the rows of a schedule hold.

A gate in a row was asked for by a call or fills the row up. This needs nothing of the operands: a
call that names a qubit twice moves cells around, but makes up no gate.
-/

namespace QCircuit.Schedule

variable {P : Gate → Prop}

/-- All gates in a row have a property. -/
def RowHolds (P : Gate → Prop) (row : List Cell) : Prop := ∀ g, .gate g ∈ row → P g

/-- All gates in the rows have a property. -/
def Holds (P : Gate → Prop) (rows : List (List Cell)) : Prop := ∀ row ∈ rows, RowHolds P row

/-! ### Rows -/

lemma RowHolds.append {xs ys : List Cell} (hx : RowHolds P xs) (hy : RowHolds P ys) :
    RowHolds P (xs ++ ys) := by
  intro g hg
  exact (List.mem_append.mp hg).elim (hx g) (hy g)

lemma rowHolds_gate {g : Gate} (hg : P g) : RowHolds P [.gate g] := by
  rintro g' hg'
  obtain rfl := Cell.gate.inj (List.mem_singleton.mp hg')
  exact hg

lemma RowHolds.pad {q slot : Nat} {row : List Cell} (hrow : RowHolds P row)
    (hq : P (.identity q)) : RowHolds P (pad q slot row) := by
  refine hrow.append fun g hg => ?_
  obtain rfl := Cell.gate.inj (List.eq_of_mem_replicate hg)
  exact hq

lemma Holds.modify {rows : List (List Cell)} (h : Holds P rows) (q : Nat)
    {f : List Cell → List Cell} (hf : ∀ row, RowHolds P row → RowHolds P (f row)) :
    Holds P (rows.modify q f) := by
  intro row hrow
  obtain ⟨i, hi⟩ := List.mem_iff_getElem?.mp hrow
  obtain ⟨old, hold, rfl⟩ := Option.map_eq_some_iff.mp ((List.getElem?_modify f q rows i) ▸ hi)
  have hmem := h old (List.mem_of_getElem? hold)
  split
  · exact hf old hmem
  · exact hmem

lemma Holds.foldl_modify {β : Type} {f : Nat × β → List Cell → List Cell} {ps : List (Nat × β)}
    {rows : List (List Cell)} (h : Holds P rows)
    (hf : ∀ p ∈ ps, ∀ row, RowHolds P row → RowHolds P (f p row)) :
    Holds P (ps.foldl (fun rows p => rows.modify p.1 (f p)) rows) := by
  induction ps generalizing rows with
  | nil => exact h
  | cons p ps ih =>
    obtain ⟨hp, hps⟩ := List.forall_mem_cons.mp hf
    exact ih (h.modify p.1 hp) hps

/-! ### Calls -/

section Calls

variable {s s' : Schedule} {slot : Nat} (hs : Holds P s.rows)
  (hfill : ∀ q < s.rows.length, P (.identity q))
include hs hfill

lemma Holds.place {g : Gate} (hg : P g) (h : s.place g = .ok (s', slot)) : Holds P s'.rows := by
  obtain ⟨-, hin, -, hrows⟩ := place_ok h
  rw [hrows, mark]
  refine Holds.modify (hs.foldl_modify fun p hp row hrow => ?_) _
    fun row hrow => hrow.append (rowHolds_gate hg)
  refine (hrow.pad (hfill p.1 (hin p.1 (List.fst_mem_of_mem_zipIdx hp)))).append ?_
  split <;> simp [RowHolds]

lemma Holds.measure {targets : List (Nat × Nat)} {condition : Option Condition}
    (hg : ∀ p ∈ targets, P (.measure p.1 p.2 condition))
    (h : s.measure targets condition = .ok (s', slot)) : Holds P s'.rows := by
  obtain ⟨hin, -, hrows⟩ := measure_ok h
  have hfold : Holds P (targets.foldl (fun rows p => rows.modify p.1 fun row =>
      Schedule.pad p.1 slot row ++ [.gate (.measure p.1 p.2 condition)]) s.rows) :=
    hs.foldl_modify fun p hp row hrow =>
      (hrow.pad (hfill p.1 (hin p.1 (List.mem_map_of_mem hp)))).append (rowHolds_gate (hg p hp))
  -- the barrier fills up every row
  rw [hrows]
  intro row hrow
  obtain ⟨q, hq, rfl⟩ := List.mem_mapIdx.mp hrow
  refine (hfold _ (List.getElem_mem hq)).pad (hfill q ?_)
  rwa [length_foldl_modify] at hq

/-- **A call adds its gates and filling.** -/
theorem Holds.perform {c : Call} (hc : ∀ g ∈ c.gates, P g) (h : s.perform c = .ok (s', slot)) :
    Holds P s'.rows := by
  cases c with
  | unitary g => exact hs.place hfill (hc g List.mem_cons_self) h
  | measurement targets condition =>
    exact hs.measure hfill (fun p hp => hc _ (List.mem_map_of_mem hp)) h

end Calls

/-- **A schedule holds the gates of its calls, and filling.** -/
theorem Holds.performAll {s s' : Schedule} {cs : List Call} (hs : Holds P s.rows)
    (hfill : ∀ q < s.rows.length, P (.identity q)) (hcs : ∀ c ∈ cs, ∀ g ∈ c.gates, P g)
    (h : s.performAll cs = .ok s') : Holds P s'.rows := by
  induction cs generalizing s with
  | nil =>
    obtain rfl := Except.ok.inj h
    exact hs
  | cons c cs ih =>
    obtain ⟨s₁, slot, h₁, h₂⟩ := performAll_cons_ok.mp h
    obtain ⟨hc, hcs⟩ := List.forall_mem_cons.mp hcs
    exact ih (hs.perform hfill hc h₁) (length_perform h₁ ▸ hfill) hcs h₂

/-! ### Circuits -/

lemma exists_cell_of_mem_gates {s : Schedule} {clbits : Nat} {c : Circuit}
    (h : s.flatten clbits = .ok c) {g : Gate} (hg : g ∈ c.gates) :
    ∃ q < s.rows.length, ∃ t, s.cellAt q t = .gate g := by
  obtain ⟨-, rfl⟩ := flatten_eq_ok_iff.mp h
  obtain ⟨slice, hslice, hg⟩ := List.mem_flatten.mp hg
  obtain ⟨t, -, rfl⟩ := List.mem_map.mp hslice
  obtain ⟨⟨_, q⟩, hrow, rfl⟩ := List.mem_map.mp hg
  obtain ⟨q', hq', hrow⟩ := List.mem_filterMap.mp hrow
  obtain ⟨_, hemit, heq⟩ := Option.map_eq_some_iff.mp hrow
  obtain ⟨rfl, rfl⟩ := Prod.mk.inj heq
  refine ⟨q', List.mem_range.mp hq', t, ?_⟩
  unfold emitted at hemit
  split at hemit
  · simp at hemit
  · split at hemit
    · next g' hcell => rw [hcell, Option.some.inj hemit]
    · simp at hemit

lemma Holds.cellAt {s : Schedule} (hs : Holds P s.rows) {q t : Nat} {g : Gate}
    (hq : P (.identity q)) (h : s.cellAt q t = .gate g) : P g := by
  unfold Schedule.cellAt at h
  rcases hcell : (s.rows[q]?).bind (·[t]?) with _ | cell
  · rw [hcell] at h
    obtain rfl := Cell.gate.inj h
    exact hq
  · obtain ⟨row, hrow, ht⟩ := Option.bind_eq_some_iff.mp hcell
    rw [hcell] at h
    obtain rfl : cell = .gate g := h
    exact hs row (List.mem_of_getElem? hrow) g (List.mem_of_getElem? ht)

/-- **The gates of a circuit are those that were asked for, and filling.** -/
theorem flatten_holds {n m : Nat} {cs : List Call} {s : Schedule} {c : Circuit}
    (h : (empty n).performAll cs = .ok s) (hfill : ∀ q < n, P (.identity q))
    (hcs : ∀ d ∈ cs, ∀ g ∈ d.gates, P g) (hc : s.flatten m = .ok c) :
    (c.qubits = n ∧ c.clbits = m) ∧ ∀ g ∈ c.gates, P g := by
  have hempty : Holds P (empty n).rows := by
    intro row hrow g hg
    rw [List.eq_of_mem_replicate hrow] at hg
    simp at hg
  have hlen : (empty n).rows.length = n := List.length_replicate
  have hs : Holds P s.rows := hempty.performAll (by rwa [hlen]) hcs h
  have hrows : s.rows.length = n := (length_performAll h).trans hlen
  refine ⟨?_, fun g hg => ?_⟩
  · obtain ⟨-, rfl⟩ := flatten_eq_ok_iff.mp hc
    exact ⟨hrows, rfl⟩
  · obtain ⟨q, hq, t, hcell⟩ := exists_cell_of_mem_gates hc hg
    exact hs.cellAt (hfill q (hrows ▸ hq)) hcell

end QCircuit.Schedule
