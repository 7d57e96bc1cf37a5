import QCircuit.Proofs.Fallible
import QCircuit.Proofs.Schedule.Cells

/-!
The circuit of a schedule, read off its cells.

A schedule becomes a circuit exactly when no gate uses a qubit after its measurement, and slice `t`
then holds, row by row, the gates of slot `t` on the rows that are not measured before.
-/

namespace QCircuit

def Cell.isMeasure : Cell → Bool
  | .gate g => g.isMeasure
  | .reserved => false

namespace Schedule

@[simp] lemma isMeasure_idle (q : Nat) : (idle q).isMeasure = false := rfl

/-- Whether row `q` holds a measurement before slot `t`. -/
def measured (s : Schedule) (q t : Nat) : Bool :=
  (List.range t).any fun u => (s.cellAt q u).isMeasure

lemma measured_iff {s : Schedule} {q t : Nat} :
    s.measured q t = true ↔ ∃ u < t, (s.cellAt q u).isMeasure = true := by
  simp [measured]

lemma measured_succ (s : Schedule) (q t : Nat) :
    s.measured q (t + 1) = (s.measured q t || (s.cellAt q t).isMeasure) := by
  simp [measured, List.range_succ]

/-- The gate that row `q` gives to slice `t`. -/
def emitted (s : Schedule) (t q : Nat) : Option Gate :=
  if s.measured q t then none
  else
    match s.cellAt q t with
    | .gate g => some g
    | .reserved => none

/-- The cell keeps to the rule that a measured qubit is not used any more. -/
def LegalAt (s : Schedule) (t q : Nat) : Prop :=
  ∀ g, s.cellAt q t = .gate g →
    if s.measured q t then g.isIdentity = true else ∀ o ∈ g.qubits, s.measured o t = false

/-- No qubit is used after its measurement. -/
def Legal (s : Schedule) : Prop := ∀ t q, s.LegalAt t q

lemma legalAt_of_idle {s : Schedule} {t q : Nat} (h : s.cellAt q t = idle q) : s.LegalAt t q := by
  intro g hg
  rw [h] at hg
  obtain rfl : Gate.identity q = g := Cell.gate.inj hg
  split
  · rfl
  · next hm =>
    intro o ho
    rw [show o = q by simpa [Gate.identity] using ho]
    simpa using hm

lemma emitted_of_idle {s : Schedule} {t q : Nat} (h : s.cellAt q t = idle q) :
    s.emitted t q = if s.measured q t then none else some (.identity q) := by
  simp [emitted, h, idle]

lemma emit_eq_ok_iff {s : Schedule} {earlier : List Nat} {t q : Nat} {row : List Cell}
    (hearlier : ∀ o, o ∈ earlier ↔ s.measured o t = true) (hrow : s.rows[q]? = some row)
    {x : Option Gate} :
    emit earlier t q row[t]? = .ok x ↔ s.LegalAt t q ∧ x = s.emitted t q := by
  have hcell := cellAt_eq hrow t
  unfold emit
  by_cases hm : s.measured q t = true
  · rw [if_pos ((hearlier q).mpr hm)]
    unfold LegalAt emitted
    rcases hc : row[t]? with _ | ⟨g | _⟩ <;> rw [hc] at hcell
    · simp [hcell, idle, hm, Gate.isIdentity, Gate.identity, Gate.Kind.isIdentity, @eq_comm _ x]
    · by_cases hid : g.isIdentity = true <;> simp [hcell, hm, hid, @eq_comm _ x]
    · simp [hcell, hm, @eq_comm _ x]
  · rw [if_neg (fun hc => hm ((hearlier q).mp hc))]
    rcases hc : row[t]? with _ | ⟨g | _⟩ <;> rw [hc] at hcell
    · have hidle : s.cellAt q t = idle q := hcell
      simp [legalAt_of_idle hidle, emitted_of_idle hidle, hm, @eq_comm _ x]
    · have hlegal : s.LegalAt t q ↔ g.qubits.find? (· ∈ earlier) = none := by
        simp only [LegalAt, hcell, Option.getD_some, Cell.gate.injEq, forall_eq', hm,
          Bool.false_eq_true, if_false, List.find?_eq_none, decide_eq_true_eq, hearlier,
          Bool.not_eq_true]
      rcases hf : g.qubits.find? (· ∈ earlier) with _ | o
      · simp [hlegal, hf, emitted, hm, hcell, @eq_comm _ x]
      · simp [hlegal, hf]
    · simp [LegalAt, emitted, hcell, hm, @eq_comm _ x]

/-- The gates of slice `t` with their rows. -/
def sliceRows (s : Schedule) (t : Nat) : List (Gate × Nat) :=
  (List.range s.rows.length).filterMap fun q => (s.emitted t q).map (·, q)

lemma map_fst_sliceRows (s : Schedule) (t : Nat) :
    (s.sliceRows t).map (·.1) = (List.range s.rows.length).filterMap (s.emitted t) := by
  rw [sliceRows, List.map_filterMap]
  refine List.filterMap_congr fun q _ => ?_
  cases s.emitted t q <;> rfl

lemma slice_eq_ok_iff {s : Schedule} {earlier : List Nat} {t : Nat}
    (hearlier : ∀ o, o ∈ earlier ↔ s.measured o t = true) {gs : List (Gate × Nat)} :
    s.slice earlier t = .ok gs ↔
      (∀ q < s.rows.length, s.LegalAt t q) ∧ gs = s.sliceRows t := by
  have hcell : ∀ p ∈ s.rows.zipIdx, ∀ y,
      (do return (← emit earlier t p.2 p.1[t]?).map fun g => (g, p.2) :
        Except CompileError (Option (Gate × Nat))) = .ok y ↔
      s.LegalAt t p.2 ∧ y = (s.emitted t p.2).map (·, p.2) := by
    rintro ⟨row, q⟩ hp y
    have hrow : s.rows[q]? = some row := by simpa [List.mem_zipIdx_iff_getElem?] using hp
    simp only [bind_eq_ok, emit_eq_ok_iff hearlier hrow, pure, Except.pure, Except.ok.injEq]
    constructor
    · rintro ⟨x, ⟨hl, rfl⟩, rfl⟩
      exact ⟨hl, rfl⟩
    · rintro ⟨hl, rfl⟩
      exact ⟨_, ⟨hl, rfl⟩, rfl⟩
  have hrange : s.rows.zipIdx.map (·.2) = List.range s.rows.length := by
    rw [List.zipIdx_map_snd, List.range_eq_range']
  have hlegal : (∀ p ∈ s.rows.zipIdx, s.LegalAt t p.2) ↔ ∀ q < s.rows.length, s.LegalAt t q := by
    rw [← List.forall_mem_map (P := s.LegalAt t), hrange]
    simp
  have hgates : (s.rows.zipIdx.map fun p => (s.emitted t p.2).map (·, p.2)).filterMap id =
      s.sliceRows t := by
    rw [sliceRows, ← hrange, List.filterMap_map, List.filterMap_map]
    rfl
  unfold slice
  simp only [bind_eq_ok, pure, Except.pure, Except.ok.injEq]
  constructor
  · rintro ⟨cells, hcells, rfl⟩
    obtain ⟨hl, rfl⟩ := (mapM_eq_ok_iff_of hcell).mp hcells
    exact ⟨hlegal.mp hl, hgates⟩
  · rintro ⟨hl, rfl⟩
    exact ⟨_, (mapM_eq_ok_iff_of hcell).mpr ⟨hlegal.mpr hl, rfl⟩, hgates⟩

/-- The rows measured in a slice are those that are measured afterwards and not before. -/
lemma mem_fresh_iff {s : Schedule} {t q : Nat} :
    q ∈ ((s.sliceRows t).filter (·.1.isMeasure)).map (·.2) ↔
      s.measured q t = false ∧ (s.cellAt q t).isMeasure = true := by
  have hlt : (s.cellAt q t).isMeasure = true → q < s.rows.length := by
    intro h
    by_contra hc
    simp [cellAt_outside (Nat.le_of_not_lt hc)] at h
  simp only [List.mem_map, List.mem_filter, sliceRows, List.mem_filterMap, List.mem_range,
    Option.map_eq_some_iff]
  constructor
  · rintro ⟨p, ⟨⟨o, ho, g, hg, rfl⟩, hm⟩, rfl⟩
    unfold emitted at hg
    split at hg
    · simp at hg
    · next hmeas =>
      split at hg
      · next g' hcell =>
        obtain rfl := Option.some.inj hg
        exact ⟨by simpa using hmeas, by rw [hcell]; exact hm⟩
      · simp at hg
  · rintro ⟨hm, hc⟩
    cases hcell : s.cellAt q t with
    | reserved => simp [hcell, Cell.isMeasure] at hc
    | gate g =>
      refine ⟨(g, q), ⟨⟨q, hlt hc, g, ?_, rfl⟩, ?_⟩, rfl⟩
      · simp [emitted, hm, hcell]
      · simpa [hcell, Cell.isMeasure] using hc

lemma slicesFrom_eq_ok_iff {s : Schedule} (n : Nat) {t : Nat} {earlier : List Nat}
    (hearlier : ∀ o, o ∈ earlier ↔ s.measured o t = true) {slices : List (List Gate)} :
    s.slicesFrom earlier (List.range' t n) = .ok slices ↔
      (∀ u, t ≤ u → u < t + n → ∀ q < s.rows.length, s.LegalAt u q) ∧
        slices = (List.range' t n).map fun u => (s.sliceRows u).map (·.1) := by
  induction n generalizing t earlier slices with
  | zero =>
    have hnone : ∀ u, t ≤ u → u < t + 0 → ∀ q < s.rows.length, s.LegalAt u q := by
      intro u h₁ h₂
      omega
    rw [List.range'_zero, slicesFrom, List.map_nil, Except.ok.injEq]
    exact ⟨fun h => ⟨hnone, h.symm⟩, fun h => h.2.symm⟩
  | succ n ih =>
    have hnext : ∀ o, o ∈ earlier ++ ((s.sliceRows t).filter (·.1.isMeasure)).map (·.2) ↔
        s.measured o (t + 1) = true := by
      intro o
      rw [List.mem_append, mem_fresh_iff, hearlier, measured_succ]
      cases s.measured o t <;> simp
    have hsplit : (∀ u, t ≤ u → u < t + (n + 1) → ∀ q < s.rows.length, s.LegalAt u q) ↔
        (∀ q < s.rows.length, s.LegalAt t q) ∧
          ∀ u, t + 1 ≤ u → u < t + 1 + n → ∀ q < s.rows.length, s.LegalAt u q := by
      constructor
      · exact fun h => ⟨h t (by omega) (by omega), fun u h₁ h₂ => h u (by omega) (by omega)⟩
      · rintro ⟨h₁, h₂⟩ u hu hu'
        rcases Nat.eq_or_lt_of_le hu with rfl | hu
        · exact h₁
        · exact h₂ u (by omega) (by omega)
    rw [List.range'_succ, slicesFrom, hsplit]
    simp only [bind_eq_ok, slice_eq_ok_iff hearlier, pure, Except.pure, Except.ok.injEq,
      List.map_cons]
    constructor
    · rintro ⟨gs, ⟨hl, rfl⟩, rest, hrest, rfl⟩
      obtain ⟨hl', rfl⟩ := (ih hnext).mp hrest
      exact ⟨⟨hl, hl'⟩, rfl⟩
    · rintro ⟨⟨hl, hl'⟩, rfl⟩
      exact ⟨_, ⟨hl, rfl⟩, _, (ih hnext).mpr ⟨hl', rfl⟩, rfl⟩

lemma free_le_height (s : Schedule) (q : Nat) : s.free q ≤ s.height := by
  rcases hrow : s.rows[q]? with _ | row
  · simp [free, nextFree?, hrow]
  · rw [free_eq hrow]
    exact (le_foldl_max _ 0).2 _ (List.mem_map_of_mem (List.mem_of_getElem? hrow))

lemma cellAt_of_height_le {s : Schedule} {t : Nat} (h : s.height ≤ t) (q : Nat) :
    s.cellAt q t = idle q :=
  cellAt_of_free_le (Nat.le_trans (s.free_le_height q) h)

/-- **When a schedule becomes a circuit, and which.** -/
theorem flatten_eq_ok_iff {s : Schedule} {clbits : Nat} {c : Circuit} :
    s.flatten clbits = .ok c ↔
      s.Legal ∧ c = ⟨(List.range s.height).map fun t => (s.sliceRows t).map (·.1),
        s.rows.length, clbits⟩ := by
  have hstart : ∀ o, o ∈ ([] : List Nat) ↔ s.measured o 0 = true := by simp [measured]
  have hlegal : (∀ u, 0 ≤ u → u < 0 + s.height → ∀ q < s.rows.length, s.LegalAt u q) ↔
      s.Legal := by
    constructor
    · intro h t q
      by_cases ht : t < s.height
      · by_cases hq : q < s.rows.length
        · exact h t (by omega) (by omega) q hq
        · exact legalAt_of_idle (cellAt_outside (Nat.le_of_not_lt hq) t)
      · exact legalAt_of_idle (cellAt_of_height_le (Nat.le_of_not_lt ht) q)
    · exact fun h u _ _ q _ => h u q
  unfold flatten
  simp only [List.range_eq_range', bind_eq_ok, slicesFrom_eq_ok_iff _ hstart, hlegal, pure,
    Except.pure, Except.ok.injEq]
  constructor
  · rintro ⟨slices, ⟨hl, rfl⟩, rfl⟩
    exact ⟨hl, rfl⟩
  · rintro ⟨hl, rfl⟩
    exact ⟨_, ⟨hl, rfl⟩, rfl⟩

end Schedule
end QCircuit
