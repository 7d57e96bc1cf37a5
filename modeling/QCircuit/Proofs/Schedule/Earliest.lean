import QCircuit.Proofs.Schedule.Conservation

/-!
Slots as early as the calls allow.

A call waits for an earlier one that it shares a qubit with, and for every earlier measurement. Its
slot is the first one past the slots of the calls it waits for, and the circuit ends with the last
slot of a call: rows are filled up, but no slot is wasted.
-/

namespace QCircuit.Schedule

/-- Whether a later call `d` waits for `c`. -/
def Call.Delays (c d : Call) : Prop := c.isMeasurement = true ∨ ∃ q ∈ c.qubits, q ∈ d.qubits

instance (c d : Call) : Decidable (c.Delays d) := inferInstanceAs (Decidable (_ ∨ _))

/-- The first slot past all the given ones. -/
def firstPast (slots : List Nat) : Nat := (slots.map (· + 1)).foldl max 0

/-- The first slot past those of the calls that `d` waits for. -/
def earliest (calls : List (Call × Nat)) (d : Call) : Nat :=
  firstPast ((calls.filter (·.1.Delays d)).map (·.2))

/-! ### Upper bounds -/

lemma foldl_max_le_iff {xs : List Nat} {b : Nat} : xs.foldl max 0 ≤ b ↔ ∀ x ∈ xs, x ≤ b := by
  refine ⟨fun h x hx => Nat.le_trans ((le_foldl_max xs 0).2 x hx) h, fun h => ?_⟩
  rcases foldl_max_mem xs 0 with h0 | hmem
  · rw [h0]
    exact Nat.zero_le b
  · exact h _ hmem

lemma firstPast_le_iff {slots : List Nat} {b : Nat} :
    firstPast slots ≤ b ↔ ∀ t ∈ slots, t < b := by
  rw [firstPast, foldl_max_le_iff, List.forall_mem_map]
  rfl

lemma earliest_le_iff {calls : List (Call × Nat)} {d : Call} {b : Nat} :
    earliest calls d ≤ b ↔ ∀ p ∈ calls, p.1.Delays d → p.2 < b := by
  simp only [earliest, firstPast_le_iff, List.forall_mem_map, List.mem_filter, decide_eq_true_eq,
    and_imp]

lemma slotFor_le_iff {s : Schedule} {qs : List Nat} {b : Nat} :
    s.slotFor qs ≤ b ↔ ∀ q ∈ qs, s.free q ≤ b := by
  rw [slotFor, foldl_max_le_iff, List.forall_mem_map]
  rfl

lemma height_le_iff {s : Schedule} {b : Nat} :
    s.height ≤ b ↔ ∀ q < s.rows.length, s.free q ≤ b := by
  rw [height, foldl_max_le_iff, List.forall_mem_map, List.forall_mem_iff_getElem]
  exact forall₂_congr fun q hq => by rw [free_eq (List.getElem?_eq_getElem hq)]

/-! ### The free slot of a row -/

/-- Whether a call moves the free slot of a row past its own slot. -/
def Call.Passes (c : Call) (q : Nat) : Prop := c.isMeasurement = true ∨ q ∈ c.qubits

lemma Call.delays_iff {c d : Call} (hd : d.qubits ≠ []) :
    c.Delays d ↔ ∃ q ∈ d.qubits, c.Passes q := by
  obtain ⟨r, hr⟩ := List.exists_mem_of_ne_nil _ hd
  constructor
  · rintro (hm | ⟨q, hq, hqd⟩)
    · exact ⟨r, hr, Or.inl hm⟩
    · exact ⟨q, hqd, Or.inr hq⟩
  · rintro ⟨q, hqd, hm | hq⟩
    · exact Or.inl hm
    · exact Or.inr ⟨q, hq, hqd⟩

lemma Fills.free_le_iff {s s' : Schedule} {c : Call} {slot : Nat}
    (hf : Fills s s' c.qubits slot (s.callCell c) c.isMeasurement) {q : Nat}
    (hq : q < s.rows.length) {b : Nat} :
    s'.free q ≤ b ↔ s.free q ≤ b ∧ (c.Passes q → slot < b) := by
  unfold Call.Passes
  by_cases hmem : q ∈ c.qubits
  · have hreached := hf.reached q hmem
    rw [hf.free_mem q hmem]
    simp only [hmem, or_true, true_implies]
    omega
  · rw [hf.free_rest q hq hmem]
    cases c.isMeasurement with
    | false => simp [hmem]
    | true =>
      simp only [if_true, true_or, true_implies]
      omega

namespace Runs

variable {s s' : Schedule} {calls : List (Call × Nat)}

lemma length (h : Runs s calls s') : s'.rows.length = s.rows.length :=
  length_performAll h.performAll

lemma split {before after : List (Call × Nat)} (h : Runs s (before ++ after) s') :
    ∃ m, Runs s before m ∧ Runs m after s' := by
  induction before generalizing s with
  | nil => exact ⟨s, .nil s, h⟩
  | cons p before ih =>
    cases h with
    | cons hp rest =>
      obtain ⟨m, hbefore, hafter⟩ := ih rest
      exact ⟨m, .cons hp hbefore, hafter⟩

/-- **A row is no longer than the calls need that pass it.** -/
lemma free_le_iff (h : Runs s calls s') (hnd : ∀ p ∈ calls, p.1.qubits.Nodup) {q : Nat}
    (hq : q < s.rows.length) {b : Nat} :
    s'.free q ≤ b ↔ s.free q ≤ b ∧ ∀ p ∈ calls, p.1.Passes q → p.2 < b := by
  induction h with
  | nil s => simp
  | cons h rest ih =>
    have hf := perform_fills h (hnd _ List.mem_cons_self)
    rw [ih (fun p hp => hnd p (List.mem_cons_of_mem _ hp)) (hf.length ▸ hq), hf.free_le_iff hq,
      List.forall_mem_cons, and_assoc]

lemma inRange (h : Runs s calls s') (hnd : ∀ p ∈ calls, p.1.qubits.Nodup)
    {p : Call × Nat} (hp : p ∈ calls) : ∀ q ∈ p.1.qubits, q < s.rows.length := by
  induction h with
  | nil s => simp at hp
  | cons h rest ih =>
    have hf := perform_fills h (hnd _ List.mem_cons_self)
    rcases List.mem_cons.mp hp with rfl | hp
    · exact hf.inRange
    · rw [← hf.length]
      exact ih (fun p hp => hnd p (List.mem_cons_of_mem _ hp)) hp

/-- No call that succeeds is without qubits, unless it measures nothing. -/
lemma qubits_ne_nil (h : Runs s calls s')
    (hne : ∀ p ∈ calls, p.1.isMeasurement = true → p.1.qubits ≠ []) :
    ∀ p ∈ calls, p.1.qubits ≠ [] := by
  induction h with
  | nil s => simp
  | @cons _ _ _ c _ _ h rest ih =>
    obtain ⟨hc, hrest⟩ := List.forall_mem_cons.mp hne
    refine List.forall_mem_cons.mpr ⟨?_, ih hrest⟩
    cases hm : c.isMeasurement with
    | false => exact perform_qubits_ne_nil h hm
    | true => exact hc hm

end Runs

/-! ### Slots and depth -/

section Start

variable {n : Nat} {s s' : Schedule} {calls : List (Call × Nat)} (h : Runs (empty n) calls s)
  (hnd : ∀ p ∈ calls, p.1.qubits.Nodup)
include h hnd

lemma Runs.free_start_le_iff {q : Nat} (hq : q < s.rows.length) {b : Nat} :
    s.free q ≤ b ↔ ∀ p ∈ calls, p.1.Passes q → p.2 < b := by
  rw [h.free_le_iff hnd (h.length ▸ hq), free_empty]
  simp

/-- The next call gets the first slot past the calls it waits for. -/
lemma Runs.slot_eq_earliest {c : Call} {slot : Nat} (hc : s.perform c = .ok (s', slot))
    (hndc : c.qubits.Nodup) (hne : c.qubits ≠ []) : slot = earliest calls c := by
  have hin := (perform_fills hc hndc).inRange
  rw [perform_slot hc]
  -- both sides have the same upper bounds
  refine eq_of_forall_ge_iff fun b => ?_
  rw [slotFor_le_iff, earliest_le_iff]
  constructor
  · intro hle p hp hdelays
    obtain ⟨q, hq, hpass⟩ := (Call.delays_iff hne).mp hdelays
    exact (h.free_start_le_iff hnd (hin q hq)).mp (hle q hq) p hp hpass
  · intro hlt q hq
    refine (h.free_start_le_iff hnd (hin q hq)).mpr fun p hp hpass => hlt p hp ?_
    exact (Call.delays_iff hne).mpr ⟨q, hq, hpass⟩

/-- The rows end with the last slot of a call. -/
lemma Runs.height_eq_firstPast (hne : ∀ p ∈ calls, p.1.qubits ≠ []) :
    s.height = firstPast (calls.map (·.2)) := by
  refine eq_of_forall_ge_iff fun b => ?_
  rw [height_le_iff, firstPast_le_iff, List.forall_mem_map]
  constructor
  · intro hle p hp
    obtain ⟨q, hq⟩ := List.exists_mem_of_ne_nil _ (hne p hp)
    have hrow : q < s.rows.length := h.length ▸ h.inRange hnd hp q hq
    exact (h.free_start_le_iff hnd hrow).mp (hle q hrow) p hp (Or.inr hq)
  · intro hlt q hq
    exact (h.free_start_le_iff hnd hq).mpr fun p hp _ => hlt p hp

end Start

/-- **Every call gets the earliest slot it can have**, the first one past the calls it waits for,
and the circuit is just deep enough for all slots. -/
theorem runs_earliest {n : Nat} {calls : List (Call × Nat)} {s : Schedule}
    (h : Runs (empty n) calls s) (hnd : ∀ p ∈ calls, p.1.qubits.Nodup)
    (hne : ∀ p ∈ calls, p.1.isMeasurement = true → p.1.qubits ≠ []) :
    (∀ before c slot after, calls = before ++ (c, slot) :: after → slot = earliest before c) ∧
      ∀ clbits circuit, s.flatten clbits = .ok circuit →
        circuit.depth = firstPast (calls.map (·.2)) := by
  have hqubits := h.qubits_ne_nil hne
  refine ⟨?_, fun clbits circuit hflat => ?_⟩
  · rintro before c slot after rfl
    obtain ⟨m, hbefore, hafter⟩ := h.split
    obtain ⟨hndb, hnda⟩ := List.forall_mem_append.mp hnd
    cases hafter with
    | cons hc _ =>
      exact hbefore.slot_eq_earliest hndb hc (hnda _ List.mem_cons_self)
        (hqubits (c, slot) (by simp))
  · obtain ⟨-, rfl⟩ := flatten_eq_ok_iff.mp hflat
    rw [Circuit.depth, List.length_map, List.length_range]
    exact h.height_eq_firstPast hnd hqubits

/-- Six calls on four qubits, each with the slot it gets. -/
def waitingCalls : List (Call × Nat) :=
  [(.unitary { kind := .standard .h, qubits := [0] }, 0),
    (.unitary { kind := .standard .cnot, qubits := [1, 0] }, 1),
    (.unitary { kind := .standard .x, qubits := [2] }, 0),
    (.measurement [(2, 0)] none, 1),
    (.unitary { kind := .standard .h, qubits := [3] }, 2),
    (.unitary { kind := .standard .cnot, qubits := [3, 1] }, 3)]

theorem waitingCalls_earliest :
    ∃ s circuit, Runs (empty 4) waitingCalls s ∧ s.flatten 1 = .ok circuit ∧
      -- the gate on qubit 3 waits for nothing but the measurement
      2 = earliest (waitingCalls.take 4) (.unitary { kind := .standard .h, qubits := [3] }) ∧
      circuit.depth = 4 := by
  have hruns : Runs (empty 4) waitingCalls _ :=
    .cons rfl (.cons rfl (.cons rfl (.cons rfl (.cons rfl (.cons rfl (.nil _))))))
  have h := runs_earliest hruns (by decide) (by decide)
  exact ⟨_, _, hruns, rfl, h.1 _ _ _ (waitingCalls.drop 5) rfl, h.2 1 _ rfl⟩

end QCircuit.Schedule
