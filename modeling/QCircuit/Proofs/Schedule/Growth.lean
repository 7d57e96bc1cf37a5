import QCircuit.Proofs.Schedule.Conservation
import QCircuit.Proofs.Schedule.Contents
import QCircuit.Proofs.Schedule.Exchange

/-!
Rows grow at their ends.

Placing a gate changes no cell that a row has: it adds cells behind the last one. The gates in these
cells are the one that was placed, or they fill the row up. No more is needed of the operands, which
may name a qubit twice.
-/

namespace QCircuit.Schedule

variable {P : Gate → Prop} {rows rows' rows'' : List (List Cell)}

/-- Every row keeps its cells, and all gates in the cells behind them have a property. -/
structure Extends (P : Gate → Prop) (rows rows' : List (List Cell)) : Prop where
  length : rows'.length = rows.length
  row (q : Nat) (row : List Cell) : rows[q]? = some row →
    ∃ new, rows'[q]? = some (row ++ new) ∧ RowHolds P new

namespace Extends

lemma refl (P : Gate → Prop) (rows : List (List Cell)) : Extends P rows rows :=
  ⟨rfl, fun _ row h => ⟨[], by rw [h, List.append_nil], by simp [RowHolds]⟩⟩

lemma trans (h : Extends P rows rows') (h' : Extends P rows' rows'') : Extends P rows rows'' := by
  refine ⟨h'.length.trans h.length, fun q row hrow => ?_⟩
  obtain ⟨new, hnew, hP⟩ := h.row q row hrow
  obtain ⟨new', hnew', hP'⟩ := h'.row q _ hnew
  exact ⟨new ++ new', by rw [hnew', List.append_assoc], hP.append hP'⟩

lemma mono {Q : Gate → Prop} (h : Extends P rows rows') (hPQ : ∀ g, P g → Q g) :
    Extends Q rows rows' := by
  refine ⟨h.length, fun q row hrow => ?_⟩
  obtain ⟨new, hnew, hP⟩ := h.row q row hrow
  exact ⟨new, hnew, fun g hg => hPQ g (hP g hg)⟩

/-- Cells added to one row. -/
lemma modify (rows : List (List Cell)) (q : Nat) {f : List Cell → List Cell}
    (hf : ∀ row, ∃ new, f row = row ++ new ∧ RowHolds P new) :
    Extends P rows (rows.modify q f) := by
  refine ⟨List.length_modify .., fun i row hrow => ?_⟩
  rw [List.getElem?_modify, hrow]
  by_cases hq : q = i
  · obtain ⟨new, hnew, hP⟩ := hf row
    exact ⟨new, by simp [hq, hnew], hP⟩
  · exact ⟨[], by simp [hq], by simp [RowHolds]⟩

/-- Cells added to several rows, to some of them more than once. -/
lemma foldl_modify {β : Type} {f : Nat × β → List Cell → List Cell} (ps : List (Nat × β))
    (rows : List (List Cell)) (hf : ∀ p row, ∃ new, f p row = row ++ new ∧ RowHolds P new) :
    Extends P rows (ps.foldl (fun rows p => rows.modify p.1 (f p)) rows) := by
  induction ps generalizing rows with
  | nil => exact .refl P rows
  | cons p ps ih => exact (modify rows p.1 (hf p)).trans (ih _)

end Extends

/-- Gates that fill rows up. -/
def Filling (g : Gate) : Prop := ∃ q, g = .identity q

/-- **A placed gate adds itself and filling.** -/
theorem place_extends {s s' : Schedule} {g : Gate} {slot : Nat} (h : s.place g = .ok (s', slot)) :
    Extends (fun x => x = g ∨ Filling x) s.rows s'.rows := by
  obtain ⟨-, -, -, hrows⟩ := place_ok h
  rw [hrows, mark]
  refine (Extends.foldl_modify _ _ fun p row => ?_).trans
    (.modify _ _ fun row => ⟨_, rfl, rowHolds_gate (.inl rfl)⟩)
  refine ⟨_, List.append_assoc .., RowHolds.append (fun x hx => ?_) ?_⟩
  · obtain rfl := Cell.gate.inj (List.eq_of_mem_replicate hx)
    exact .inr ⟨p.1, rfl⟩
  · split <;> simp [RowHolds]

/-! ### Runs without measurements -/

namespace Runs

variable {s s₁ s' : Schedule} {calls calls' : List (Call × Nat)}

lemma append (h : Runs s calls s₁) (h' : Runs s₁ calls' s') : Runs s (calls ++ calls') s' := by
  induction h with
  | nil s => exact h'
  | cons h _ ih => exact .cons h (ih h')

/-- Rows that no gate names stay as they are. -/
lemma frame (h : Runs s calls s') (hunitary : ∀ p ∈ calls, p.1.isMeasurement = false) {q : Nat}
    (hq : ∀ p ∈ calls, q ∉ p.1.qubits) : s'.rows[q]? = s.rows[q]? := by
  induction h with
  | nil s => rfl
  | @cons s s₁ s' c slot calls h _ ih =>
    obtain ⟨hc, hrest⟩ := List.forall_mem_cons.mp hunitary
    obtain ⟨hqc, hqs⟩ := List.forall_mem_cons.mp hq
    cases c with
    | unitary g => exact (ih hrest hqs).trans (place_frame h hqc)
    | measurement targets condition => simp [Call.isMeasurement] at hc

/-- **Gates that are placed one after the other add themselves and filling.** -/
theorem rows_extend (h : Runs s calls s') (hunitary : ∀ p ∈ calls, p.1.isMeasurement = false) :
    Extends (fun x => (∃ p ∈ calls, x ∈ p.1.gates) ∨ Filling x) s.rows s'.rows := by
  induction h with
  | nil s => exact .refl _ _
  | @cons s s₁ s' c slot calls h _ ih =>
    obtain ⟨hc, hrest⟩ := List.forall_mem_cons.mp hunitary
    cases c with
    | unitary g =>
      refine ((place_extends h).mono fun x hx => ?_).trans ((ih hrest).mono fun x hx => ?_)
      · exact hx.imp_left fun hg => ⟨_, List.mem_cons_self, List.mem_singleton.mpr hg⟩
      · exact hx.imp_left fun ⟨p, hp, hg⟩ => ⟨p, List.mem_cons_of_mem _ hp, hg⟩
    | measurement targets condition => simp [Call.isMeasurement] at hc

end Runs

end QCircuit.Schedule
