import QCircuit.Proofs.Ensemble.Representation

/-!
The gates that are accepted.

A unitary is checked for its kind, its angle, the number of its operands and the operands
themselves, a measurement for its operands and its classical bit. That a measurement has one operand
is not checked, only that it has any: of several the first is measured.
-/

namespace QCircuit

namespace Gate

/-- What a gate of a built-in kind needs on `n` qubits and `m` classical bits, apart from the number
of its operands. -/
structure Suits (n m : Nat) (std : Standard) (g : Gate) : Prop where
  kind : g.kind = .standard std
  nodup : g.qubits.Nodup
  below : ∀ q ∈ g.qubits, q < n
  angle : std.isRotation = true → g.angle.isSome = true
  clbit : std = .measure → ∀ q ∈ g.qubits.head?, g.clbit.getD q < m

/-- A gate with all it needs, on as many operands as its kind acts on. -/
def WellFormed (n m : Nat) (g : Gate) : Prop :=
  ∃ std, g.Suits n m std ∧ g.qubits.length = std.arity

/-- A measurement with all it needs and more than one operand. -/
def Overfull (n m : Nat) (g : Gate) : Prop := g.Suits n m .measure ∧ 1 < g.qubits.length

lemma isMeasure_iff {g : Gate} : g.isMeasure = true ↔ g.kind = .standard .measure := by
  simp [isMeasure, Kind.isMeasure]

lemma Standard.exists_matrix_iff (std : Standard) (angle : Option Float) :
    (∃ u, std.matrix angle = .ok u) ↔
      std ≠ .measure ∧ (std.isRotation = true → angle.isSome = true) := by
  cases std <;> cases angle <;> simp [Standard.matrix, Standard.isRotation]

lemma exists_matrix_iff {g : Gate} :
    (∃ u, g.matrix = .ok u) ↔ ∃ std, g.kind = .standard std ∧ std ≠ .measure ∧
      (std.isRotation = true → g.angle.isSome = true) ∧ g.qubits.length = std.arity := by
  unfold Gate.matrix
  dsimp only
  split
  · next hk => simp [hk]
  · next hk => simp [hk]
  · next std hmeasure hk =>
    have hne : std ≠ .measure := hmeasure
    have hu := std.exists_matrix_iff g.angle
    simp only [hk, Kind.standard.injEq, exists_eq_left', hne, ne_eq, not_false_eq_true, true_and]
      at hu ⊢
    rw [← hu]
    cases std.matrix g.angle with
    | error err => simp [bind, Except.bind]
    | ok u =>
      by_cases hlen : g.qubits.length = std.arity <;> simp [bind, Except.bind, hlen, pure,
        Except.pure]

lemma exists_targets_iff {g : Gate} {n : Nat} :
    (∃ targets, g.targets n = .ok targets) ↔ g.qubits.Nodup ∧ ∀ q ∈ g.qubits, q < n := by
  simp only [targets_ok]
  exact ⟨fun ⟨_, _, hlt, hnd⟩ => ⟨hnd, hlt⟩, fun ⟨hnd, hlt⟩ => ⟨_, rfl, hlt, hnd⟩⟩

/-- The measurements that are accepted. -/
lemma exists_action_measure_iff {g : Gate} {n m : Nat} (hg : g.isMeasure = true) :
    (∃ act, g.action n m = .ok act) ↔ g.Suits n m .measure ∧ g.qubits ≠ [] := by
  have hkind := isMeasure_iff.mp hg
  unfold Gate.action
  rw [if_pos hg]
  cases ht : g.targets n with
  | error err =>
    simp only [bind, Except.bind, reduceCtorEq, exists_false, false_iff, not_and]
    intro hsuits
    obtain ⟨targets, hok⟩ := exists_targets_iff.mpr ⟨hsuits.nodup, hsuits.below⟩
    simp [ht] at hok
  | ok targets =>
    obtain ⟨rfl, hlt, hnd⟩ := targets_ok.mp ht
    cases hqs : g.qubits with
    | nil => simp [bind, Except.bind]
    | cons q qs =>
      simp only [bind, Except.bind]
      constructor
      · rintro ⟨act, hact⟩
        split at hact
        · next hc =>
          exact ⟨⟨hkind, hnd, hlt, by simp [Standard.isRotation], by simpa [hqs]⟩, by simp⟩
        · simp at hact
      · rintro ⟨hsuits, -⟩
        exact ⟨_, if_pos (hsuits.clbit rfl q (by simp [hqs]))⟩

/-- The unitaries that are accepted. -/
lemma exists_action_unitary_iff {g : Gate} {n m : Nat} (hg : g.isMeasure = false) :
    (∃ act, g.action n m = .ok act) ↔ g.WellFormed n m := by
  unfold Gate.action
  rw [if_neg (by simp [hg])]
  have haction : (∃ act, (do
      let u ← g.matrix
      let targets ← g.targets n
      return fun b => [Branch.apply b targets u] : Except SimulationError _) = .ok act) ↔
      (∃ u, g.matrix = .ok u) ∧ ∃ targets, g.targets n = .ok targets := by
    cases g.matrix <;> cases g.targets n <;> simp [bind, Except.bind, pure, Except.pure]
  rw [haction, exists_matrix_iff, exists_targets_iff]
  constructor
  · rintro ⟨⟨std, hkind, hne, hangle, hlen⟩, hnd, hlt⟩
    exact ⟨std, ⟨hkind, hnd, hlt, hangle, fun hc => absurd hc hne⟩, hlen⟩
  · rintro ⟨std, hsuits, hlen⟩
    refine ⟨⟨std, hsuits.kind, ?_, hsuits.angle, hlen⟩, hsuits.nodup, hsuits.below⟩
    rintro rfl
    simp [isMeasure_iff.mpr hsuits.kind] at hg

lemma exists_action_iff {g : Gate} {n m : Nat} :
    (∃ act, g.action n m = .ok act) ↔ g.WellFormed n m ∨ g.Overfull n m := by
  cases hg : g.isMeasure with
  | true =>
    have hkind := isMeasure_iff.mp hg
    rw [exists_action_measure_iff hg]
    constructor
    · rintro ⟨hsuits, hne⟩
      rcases Nat.lt_or_eq_of_le (List.length_pos_iff.mpr hne) with hlen | hlen
      · exact .inr ⟨hsuits, hlen⟩
      · exact .inl ⟨.measure, hsuits, hlen.symm⟩
    · rintro (⟨std, hsuits, hlen⟩ | ⟨hsuits, hlen⟩)
      · obtain rfl : std = .measure := Kind.standard.inj (hsuits.kind.symm.trans hkind)
        exact ⟨hsuits, List.ne_nil_of_length_eq_add_one hlen⟩
      · exact ⟨hsuits, List.ne_nil_of_length_pos (Nat.lt_of_succ_lt hlen)⟩
  | false =>
    rw [exists_action_unitary_iff hg]
    refine (or_iff_left ?_).symm
    rintro ⟨hsuits, -⟩
    simp [isMeasure_iff.mpr hsuits.kind] at hg

end Gate

namespace Ensemble

variable {e : Ensemble}

/-- A gate is accepted when the plain interpreter knows what it does. -/
lemma Coherent.applyGate_ok_iff (h : e.Coherent) (g : Gate) :
    (e.applyGate g).2 = .ok () ↔ ∃ act, g.action e.qubits e.clbits = .ok act := by
  have hplain := congrArg Prod.snd (h.applyGate_plain g)
  dsimp only at hplain
  rw [hplain, plainStep]
  cases g.action e.qubits e.clbits <;> simp

/-- Of the operands of a measurement that is accepted only the first one is looked at. -/
lemma measurement_first {g : Gate} (hnd : g.qubits.Nodup) (hlt : ∀ q ∈ g.qubits, q < e.qubits) :
    e.measurement g = e.measurement { g with qubits := g.qubits.take 1 } := by
  have ht : g.targets e.qubits = .ok g.qubits := Gate.targets_ok.mpr ⟨rfl, hlt, hnd⟩
  have ht' : Gate.targets { g with qubits := g.qubits.take 1 } e.qubits =
      .ok (g.qubits.take 1) :=
    Gate.targets_ok.mpr ⟨rfl, fun q hq => hlt q (List.mem_of_mem_take hq),
      hnd.sublist (List.take_sublist 1 _)⟩
  unfold measurement
  rw [ht, ht']
  cases g.qubits <;> rfl

lemma applyGate_overfull {g : Gate} {n m : Nat} (hn : e.qubits = n) (hg : g.Overfull n m) :
    e.applyGate g = e.applyGate { g with qubits := g.qubits.take 1 } := by
  obtain ⟨hsuits, -⟩ := hg
  have hmeasure : g.isMeasure = true := Gate.isMeasure_iff.mpr hsuits.kind
  have hqubits := (targeted_frame e g.condition).2.2.1.trans hn
  have hfirst := measurement_first (e := (e.targeted g.condition).1) hsuits.nodup
    (by rw [hqubits]; exact hsuits.below)
  have hmeasure' : Gate.isMeasure { g with qubits := g.qubits.take 1 } = true := hmeasure
  unfold applyGate
  simp only [if_pos hmeasure, if_pos hmeasure', hfirst]

/-- **The gates that are accepted.** Whatever gates an ensemble was fed with, it accepts the
well-formed ones, and besides them only measurements of several qubits, which it takes for
measurements of the first. -/
theorem accepted_iff (n m : Nat) (record : Bool) (gs : List Gate) (g : Gate) :
    let e := (feed applyGate (initial n m record) gs).1
    ((e.applyGate g).2 = .ok () ↔ g.WellFormed n m ∨ g.Overfull n m) ∧
      (g.Overfull n m → e.applyGate g = e.applyGate { g with qubits := g.qubits.take 1 }) := by
  intro e
  have h : e.WellFormed n m := (wellFormed_initial n m record).feed gs
  refine ⟨?_, applyGate_overfull h.qubits⟩
  rw [h.toCoherent.applyGate_ok_iff, h.qubits, h.clbits, Gate.exists_action_iff]

/-- A measurement that names two qubits. -/
def measuredPair : Gate :=
  { kind := .standard .measure, qubits := [0, 1], clbit := some 0 }

lemma overfull_measuredPair : measuredPair.Overfull 2 1 :=
  ⟨⟨rfl, by decide, by decide, by decide, by decide⟩, by decide⟩

/-- It is taken for a measurement of the first, also after other gates. -/
theorem measuredPair_first :
    measuredPair.Overfull 2 1 ∧
      let e := (feed applyGate (initial 2 1 false) [.measure 1 0 none]).1
      (e.applyGate measuredPair).2 = .ok () ∧
        e.applyGate measuredPair = e.applyGate (.measure 0 0 none) := by
  obtain ⟨haccepted, hfirst⟩ := accepted_iff 2 1 false [.measure 1 0 none] measuredPair
  exact ⟨overfull_measuredPair, haccepted.mpr (.inr overfull_measuredPair),
    hfirst overfull_measuredPair⟩

/-- It is accepted, though a measurement acts on one qubit. -/
theorem measuredPair_accepted :
    ((initial 2 1 false).applyGate measuredPair).2 = .ok () ∧ ¬ measuredPair.WellFormed 2 1 := by
  refine ⟨rfl, ?_⟩
  rintro ⟨std, hsuits, hlen⟩
  obtain rfl : std = .measure := (Gate.Kind.standard.inj hsuits.kind).symm
  simp [measuredPair, Gate.Standard.arity] at hlen

end Ensemble
end QCircuit
