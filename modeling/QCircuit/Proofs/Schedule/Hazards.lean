import QCircuit.Proofs.Schedule.Runs

/-!
Classical bits in a schedule.

Slots come from the qubits alone. A measurement is a barrier for what comes after it, so whatever
follows a measurement is executed after it. Nothing holds a measurement back: a gate whose condition
reads a bit can be executed after a later measurement that overwrites the bit.
-/

namespace QCircuit.Schedule

/-! ### The order of execution -/

/-- The cells, as slot and row, that give a gate to the circuit, in the order of execution. -/
def order (s : Schedule) : List (Nat × Nat) :=
  (List.range s.height).flatMap fun t =>
    ((List.range s.rows.length).filter fun q => (s.emitted t q).isSome).map (t, ·)

lemma filterMap_eq_map_filter {α : Type} (f : Nat → Option α) (qs : List Nat) :
    (qs.filterMap f).map some = (qs.filter fun q => (f q).isSome).map f := by
  induction qs with
  | nil => rfl
  | cons q qs ih =>
    cases hf : f q with
    | none => simp [hf, ih]
    | some a => simp [hf, ih]

/-- Position by position, the circuit holds the gates of these cells. -/
theorem gates_eq_order {s : Schedule} {clbits : Nat} {c : Circuit} (h : s.flatten clbits = .ok c) :
    c.gates.map some = s.order.map fun p => s.emitted p.1 p.2 := by
  obtain ⟨-, rfl⟩ := flatten_eq_ok_iff.mp h
  have hslice : ∀ t, ((s.sliceRows t).map (·.1)).map some =
      (((List.range s.rows.length).filter fun q => (s.emitted t q).isSome).map (t, ·)).map
        fun p => s.emitted p.1 p.2 := by
    intro t
    rw [map_fst_sliceRows, filterMap_eq_map_filter, List.map_map]
    rfl
  simp only [Circuit.gates, order, ← List.flatMap_def, List.map_flatMap, hslice]

/-- Slots first, then rows. -/
def Earlier (a b : Nat × Nat) : Prop := a.1 < b.1 ∨ (a.1 = b.1 ∧ a.2 < b.2)

lemma order_pairwise (s : Schedule) : s.order.Pairwise Earlier := by
  have hslot : ∀ t, (((List.range s.rows.length).filter fun q => (s.emitted t q).isSome).map
      (t, ·)).Pairwise Earlier := by
    intro t
    rw [List.pairwise_map]
    exact (List.pairwise_lt_range.filter _).imp fun h => Or.inr ⟨rfl, h⟩
  refine List.pairwise_flatMap.mpr ⟨fun t _ => hslot t, List.pairwise_lt_range.imp ?_⟩
  intro t u htu a ha b hb
  obtain ⟨-, -, rfl⟩ := List.mem_map.mp ha
  obtain ⟨-, -, rfl⟩ := List.mem_map.mp hb
  exact Or.inl htu

/-- Every gate in the cells `as` comes before every gate in the cells `bs`. -/
def Precedes (s : Schedule) (as bs : List (Nat × Nat)) : Prop :=
  ∀ (k l : Nat) (a b), s.order[k]? = some a → s.order[l]? = some b → a ∈ as → b ∈ bs → k < l

lemma precedes_iff {s : Schedule} {as bs : List (Nat × Nat)} :
    s.Precedes as bs ↔
      ∀ a ∈ as, ∀ b ∈ bs, a ∈ s.order → b ∈ s.order → Earlier a b := by
  have hpw := List.pairwise_iff_getElem.mp s.order_pairwise
  constructor
  · intro h a ha b hb hao hbo
    obtain ⟨k, hk, rfl⟩ := List.getElem_of_mem hao
    obtain ⟨l, hl, rfl⟩ := List.getElem_of_mem hbo
    exact hpw k l hk hl
      (h k l _ _ (List.getElem?_eq_getElem hk) (List.getElem?_eq_getElem hl) ha hb)
  · intro h k l a b hk hl ha hb
    have hab := h a ha b hb (List.mem_of_getElem? hk) (List.mem_of_getElem? hl)
    obtain ⟨hk', rfl⟩ := List.getElem?_eq_some_iff.mp hk
    obtain ⟨hl', rfl⟩ := List.getElem?_eq_some_iff.mp hl
    by_contra hkl
    rcases Nat.eq_or_lt_of_le (Nat.le_of_not_lt hkl) with heq | hlt
    · subst heq
      simp only [Earlier] at hab
      omega
    · have hba := hpw l k hl' hk' hlt
      simp only [Earlier] at hab hba
      omega

/-! ### Calls and their cells -/

/-- Makes a call; one that fails changes nothing. -/
def attempt (s : Schedule) (c : Call) : Schedule :=
  match s.perform c with
  | .ok (s', _) => s'
  | .error _ => s

def run (s : Schedule) (cs : List Call) : Schedule := cs.foldl attempt s

@[simp] lemma run_nil (s : Schedule) : s.run [] = s := rfl

@[simp] lemma run_cons (s : Schedule) (c : Call) (cs : List Call) :
    s.run (c :: cs) = (s.attempt c).run cs := rfl

lemma run_append (s : Schedule) (cs ds : List Call) : s.run (cs ++ ds) = (s.run cs).run ds := by
  simp [run, List.foldl_append]

/-- The rows that store the gates of a call. -/
def storeRows (s : Schedule) : Call → List Nat
  | .unitary g => [s.ownerRow g.qubits]
  | .measurement targets _ => targets.map (·.1)

/-- The cells, as slot and row, that the gates of a call go to. -/
def spots (s : Schedule) (c : Call) : List (Nat × Nat) :=
  match s.perform c with
  | .ok (_, slot) => (s.storeRows c).map (slot, ·)
  | .error _ => []

namespace Call

/-- Whether the call measures into a classical bit. -/
def writes (c : Call) (bit : Nat) : Prop :=
  match c with
  | .unitary _ => False
  | .measurement targets _ => bit ∈ targets.map (·.2)

def condition : Call → Option Condition
  | .unitary g => g.condition
  | .measurement _ condition => condition

/-- Whether the call has a condition that reads a classical bit. -/
def reads (c : Call) (bit : Nat) : Prop := ∃ cond, c.condition = some cond ∧ bit ∈ cond.clbits

/-- The calls must keep their order because of a classical bit. -/
def Conflict (c d : Call) (bit : Nat) : Prop :=
  (c.writes bit ∧ (d.writes bit ∨ d.reads bit)) ∨ (d.writes bit ∧ c.reads bit)

end Call

section Run

variable {s : Schedule}

/-- A call either writes its cells or changes nothing. -/
lemma attempt_cases (s : Schedule) {c : Call} (hnd : c.qubits.Nodup) :
    (∃ slot, s.perform c = .ok (s.attempt c, slot) ∧
      Fills s (s.attempt c) c.qubits slot (s.callCell c) c.isMeasurement) ∨ s.attempt c = s := by
  unfold attempt
  cases h : s.perform c with
  | error e => exact Or.inr rfl
  | ok p => exact Or.inl ⟨p.2, rfl, perform_fills h hnd⟩

lemma attempt_of_ok {s' : Schedule} {c : Call} {slot : Nat} (h : s.perform c = .ok (s', slot)) :
    s.attempt c = s' := by
  simp [attempt, h]

lemma spots_of_ok {s' : Schedule} {c : Call} {slot : Nat} (h : s.perform c = .ok (s', slot)) :
    s.spots c = (s.storeRows c).map (slot, ·) := by
  simp [spots, h]

lemma run_length {cs : List Call} (hnd : ∀ c ∈ cs, c.qubits.Nodup) :
    (s.run cs).rows.length = s.rows.length := by
  induction cs generalizing s with
  | nil => rfl
  | cons c cs ih =>
    rw [run_cons, ih fun d hd => hnd d (List.mem_cons_of_mem _ hd)]
    rcases s.attempt_cases (hnd c List.mem_cons_self) with ⟨slot, -, hf⟩ | h
    · exact hf.length
    · rw [h]

lemma run_free_le {cs : List Call} (hnd : ∀ c ∈ cs, c.qubits.Nodup) (q : Nat) :
    s.free q ≤ (s.run cs).free q := by
  induction cs generalizing s with
  | nil => exact Nat.le_refl _
  | cons c cs ih =>
    refine Nat.le_trans ?_ (ih fun d hd => hnd d (List.mem_cons_of_mem _ hd))
    rcases s.attempt_cases (hnd c List.mem_cons_self) with ⟨slot, -, hf⟩ | h
    · exact hf.free_le q
    · rw [h]

/-- What a row has passed stays as it is. -/
lemma run_cellAt {cs : List Call} (hnd : ∀ c ∈ cs, c.qubits.Nodup) {q t : Nat}
    (ht : t < s.free q) : (s.run cs).cellAt q t = s.cellAt q t := by
  induction cs generalizing s with
  | nil => rfl
  | cons c cs ih =>
    have hrest : ∀ d ∈ cs, d.qubits.Nodup := fun d hd => hnd d (List.mem_cons_of_mem _ hd)
    rw [run_cons]
    rcases s.attempt_cases (hnd c List.mem_cons_self) with ⟨slot, -, hf⟩ | h
    · rw [ih hrest (Nat.lt_of_lt_of_le ht (hf.free_le q)), hf.cellAt, if_neg]
      rintro ⟨hq, rfl⟩
      have := hf.reached q hq
      omega
    · rw [h, ih hrest ht]

end Run

section Hazard

variable {s s' : Schedule} {c : Call} {slot : Nat}

lemma storeRows_subset (h : s.perform c = .ok (s', slot)) : ∀ q ∈ s.storeRows c, q ∈ c.qubits := by
  cases c with
  | unitary g =>
    intro q hq
    obtain rfl : q = s.ownerRow g.qubits := by simpa [storeRows] using hq
    exact s.ownerRow_mem (perform_qubits_ne_nil h rfl)
  | measurement targets condition => exact fun q hq => hq

/-- **The cells of a call hold its gates**, now and after any further calls. -/
theorem map_spots (h : s.perform c = .ok (s', slot)) (hnd : c.qubits.Nodup) {later : List Call}
    (hlater : ∀ d ∈ later, d.qubits.Nodup) :
    (s.spots c).map (fun p => (s'.run later).cellAt p.2 p.1) = c.gates.map .gate := by
  have hf := perform_fills h hnd
  have hcell : ∀ q ∈ s.storeRows c, (s'.run later).cellAt q slot = s.callCell c q := by
    intro q hq
    have hmem := storeRows_subset h q hq
    have hfree := hf.free_mem q hmem
    rw [run_cellAt hlater (by omega), hf.cellAt, if_pos ⟨hmem, rfl⟩]
  rw [spots_of_ok h, List.map_map]
  calc (s.storeRows c).map (fun q => (s'.run later).cellAt q slot)
      = (s.storeRows c).map (s.callCell c) := List.map_congr_left hcell
    _ = c.gates.map .gate := by
      cases c with
      | unitary g => simp [storeRows, callCell, unitaryCell, Call.gates]
      | measurement targets condition =>
        simp only [storeRows, Call.gates, callCell, List.map_map]
        refine List.map_congr_left fun p hp => ?_
        simp [measureCell, lookup_of_mem hnd hp]

/-- Whatever follows a measurement gets a later slot. -/
lemma slot_lt_of_measurement (h : s.perform c = .ok (s', slot)) (hnd : c.qubits.Nodup)
    (hc : c.isMeasurement = true) {between : List Call} (hbetween : ∀ d ∈ between, d.qubits.Nodup)
    {d : Call} (hd : d.qubits.Nodup) {t : Schedule} {slot' : Nat}
    (h' : (s'.run between).perform d = .ok (t, slot')) {q : Nat} (hq : q ∈ d.qubits) :
    slot < slot' := by
  have hf := perform_fills h hnd
  have hf' := perform_fills h' hd
  have hlt : q < s.rows.length := by
    have := hf'.inRange q hq
    rwa [run_length hbetween, hf.length] at this
  have hpast : slot + 1 ≤ s'.free q := by
    by_cases hmem : q ∈ c.qubits
    · rw [hf.free_mem q hmem]
    · rw [hf.free_rest q hlt hmem, if_pos hc]
      exact Nat.le_max_right _ _
  have h₁ : s'.free q ≤ (s'.run between).free q := run_free_le hbetween q
  have h₂ := hf'.reached q hq
  omega

/-- A gate that does something is executed. -/
lemma mem_order {s : Schedule} (hl : s.Legal) {q t : Nat} {g : Gate} (h : s.cellAt q t = .gate g)
    (hid : g.isIdentity = false) : (t, q) ∈ s.order := by
  have hne : s.cellAt q t ≠ idle q := by
    rw [h]
    rintro hc
    obtain rfl := Cell.gate.inj hc
    simp [Gate.isIdentity, Gate.identity, Gate.Kind.isIdentity] at hid
  have hrow : q < s.rows.length := by
    by_contra hc
    exact hne (cellAt_outside (Nat.le_of_not_lt hc) t)
  have hslot : t < s.height := by
    by_contra hc
    exact hne (cellAt_of_height_le (Nat.le_of_not_lt hc) q)
  have hm : s.measured q t = false := by
    have := hl t q g h
    by_contra hc
    rw [if_pos (by simpa using hc), hid] at this
    simp at this
  refine List.mem_flatMap.mpr ⟨t, List.mem_range.mpr hslot, List.mem_map.mpr ⟨q, ?_, rfl⟩⟩
  exact List.mem_filter.mpr ⟨List.mem_range.mpr hrow, by simp [emitted, hm, h]⟩

/-- The measurements of a call are executed. -/
lemma measurement_mem_order {targets : List (Nat × Nat)} {condition : Option Condition}
    (h : s.perform (.measurement targets condition) = .ok (s', slot))
    (hnd : (targets.map (·.1)).Nodup) {later : List Call} (hlater : ∀ d ∈ later, d.qubits.Nodup)
    (hl : (s'.run later).Legal) {q : Nat} (hq : q ∈ targets.map (·.1)) :
    (slot, q) ∈ (s'.run later).order := by
  have hf := measure_fills h hnd
  obtain ⟨p, hp, rfl⟩ := List.mem_map.mp hq
  have hcell : (s'.run later).cellAt p.1 slot = .gate (.measure p.1 p.2 condition) := by
    rw [run_cellAt hlater (by rw [hf.free_mem _ hq]; omega), hf.cellAt, if_pos ⟨hq, rfl⟩,
      measureCell, lookup_of_mem hnd hp]
    rfl
  exact mem_order hl hcell rfl

end Hazard

/-- **When two calls that meet on a classical bit keep their order.** If the first one is a
measurement they always do. If the first one only reads the bit, they do exactly when its gate, if
it is executed at all, stands in an earlier slot than the measurement that overwrites the bit, or in
the same slot on an earlier row. -/
theorem conflict_precedes_iff (n clbits : Nat) (before between after : List Call) {c d : Call}
    {bit : Nat} (hnd : ∀ x ∈ before ++ c :: (between ++ d :: after), x.qubits.Nodup)
    (hbit : c.Conflict d bit) {s₁ s₂ : Schedule} {slot slot' : Nat} {circuit : Circuit}
    (hc : ((empty n).run before).perform c = .ok (s₁, slot))
    (hd : ((empty n).run (before ++ c :: between)).perform d = .ok (s₂, slot'))
    (hflat : ((empty n).run (before ++ c :: (between ++ d :: after))).flatten clbits =
      .ok circuit) :
    let final := (empty n).run (before ++ c :: (between ++ d :: after))
    let first := ((empty n).run before).spots c
    let second := ((empty n).run (before ++ c :: between)).spots d
    circuit.gates.map some = final.order.map (fun p => final.emitted p.1 p.2) ∧
      first.map (fun p => final.cellAt p.2 p.1) = c.gates.map .gate ∧
      second.map (fun p => final.cellAt p.2 p.1) = d.gates.map .gate ∧
      (final.Precedes first second ↔
        c.isMeasurement = true ∨ ∀ r ∈ ((empty n).run before).storeRows c, (slot, r) ∈ final.order →
          ∀ q ∈ d.qubits, slot < slot' ∨ (slot = slot' ∧ r < q)) := by
  intro final first second
  simp only [List.mem_append, List.mem_cons] at hnd
  have hndc : c.qubits.Nodup := hnd c (by simp)
  have hndd : d.qubits.Nodup := hnd d (by simp)
  have hbetween : ∀ x ∈ between, x.qubits.Nodup := fun x hx => hnd x (by simp [hx])
  have hafter : ∀ x ∈ after, x.qubits.Nodup := fun x hx => hnd x (by simp [hx])
  have hrest : ∀ x ∈ between ++ d :: after, x.qubits.Nodup := by
    intro x hx
    exact hnd x (by simpa using Or.inr (Or.inr (by simpa using hx)))
  have hmid : (empty n).run (before ++ c :: between) = s₁.run between := by
    rw [run_append, run_cons, attempt_of_ok hc]
  have hfinal : final = s₂.run after := by
    rw [← attempt_of_ok hd, ← run_cons, ← run_append]
    simp [final]
  have hfinal' : final = s₁.run (between ++ d :: after) := by
    simp only [final]
    rw [run_append, run_cons, attempt_of_ok hc]
  have hlegal : final.Legal := (flatten_eq_ok_iff.mp hflat).1
  refine ⟨gates_eq_order hflat, ?_, ?_, ?_⟩
  · rw [hfinal']
    exact map_spots hc hndc hrest
  · rw [hfinal]
    exact map_spots hd hndd hafter
  · have hfirst : first = (((empty n).run before).storeRows c).map (slot, ·) := spots_of_ok hc
    have hsecond : second =
        (((empty n).run (before ++ c :: between)).storeRows d).map (slot', ·) := spots_of_ok hd
    rw [precedes_iff, hfirst, hsecond]
    simp only [List.forall_mem_map]
    constructor
    · intro h
      cases c with
      | measurement targets condition => exact Or.inl rfl
      | unitary g =>
        refine Or.inr fun r hr hro q hq => ?_
        -- only a measurement can meet a gate on a classical bit
        cases d with
        | unitary g' => simp [Call.Conflict, Call.writes] at hbit
        | measurement targets condition =>
          refine h r hr q hq hro ?_
          rw [hfinal]
          exact measurement_mem_order hd hndd hafter (hfinal ▸ hlegal) hq
    · rintro (hm | h) r hr q hq hro -
      · rw [hmid] at hd
        exact Or.inl (slot_lt_of_measurement hc hndc hm hbetween hndd hd
          (storeRows_subset hd q (hmid ▸ hq)))
      · exact h r hr hro q (storeRows_subset hd q hq)

/-- A gate on qubit `q` under the condition that bit 0 is set. -/
def flipIfSet (q : Nat) : Call :=
  .unitary { kind := .standard .x, qubits := [q], condition := some ⟨[0], .eq, 1⟩ }

/-- A gate that reads a bit after its measurement keeps its place. -/
theorem measured_precedes_read :
    (Call.measurement [(0, 0)] none).Conflict (flipIfSet 1) 0 ∧
      ((empty 2).run [.measurement [(0, 0)] none, flipIfSet 1]).Precedes
        ((empty 2).spots (.measurement [(0, 0)] none))
        (((empty 2).run [.measurement [(0, 0)] none]).spots (flipIfSet 1)) := by
  have hbit : (Call.measurement [(0, 0)] none).Conflict (flipIfSet 1) 0 :=
    Or.inl ⟨by simp [Call.writes], Or.inr ⟨_, rfl, by simp⟩⟩
  have h := conflict_precedes_iff 2 1 [] [] [] (by decide) hbit rfl rfl rfl
  exact ⟨hbit, h.2.2.2.mpr (Or.inl rfl)⟩

/-- A gate that reads a bit before a measurement overwrites it can be executed after it. -/
theorem read_after_overwrite :
    (flipIfSet 0).Conflict (.measurement [(1, 0)] none) 0 ∧
      (∃ circuit, ((empty 2).run [.unitary { kind := .standard .h, qubits := [0] }, flipIfSet 0,
        .measurement [(1, 0)] none]).flatten 1 = .ok circuit) ∧
      ¬((empty 2).run [.unitary { kind := .standard .h, qubits := [0] }, flipIfSet 0,
          .measurement [(1, 0)] none]).Precedes
        (((empty 2).run [.unitary { kind := .standard .h, qubits := [0] }]).spots (flipIfSet 0))
        (((empty 2).run [.unitary { kind := .standard .h, qubits := [0] }, flipIfSet 0]).spots
          (.measurement [(1, 0)] none)) := by
  refine ⟨Or.inr ⟨by simp [Call.writes], _, rfl, by simp⟩, ⟨_, rfl⟩, fun h => ?_⟩
  have := h 2 1 (1, 0) (0, 1) (by decide) (by decide) (by decide) (by decide)
  omega

end QCircuit.Schedule
