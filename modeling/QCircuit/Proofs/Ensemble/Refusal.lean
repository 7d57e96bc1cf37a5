import QCircuit.Proofs.Ensemble.Representation

/-!
Gates that are refused.

A gate looks up its condition before it is checked, so an ensemble may remember a condition more
after a gate that it has refused. That is all, and no later answer shows it: what is remembered of a
condition is what evaluating it gives, on any two ensembles with the same branches.
-/

namespace QCircuit.Ensemble

/-- Two ensembles that differ at most in what they remember of conditions. -/
structure Alike (e e' : Ensemble) : Prop where
  store : e'.store = e.store
  live : e'.live = e.live
  qubits : e'.qubits = e.qubits
  clbits : e'.clbits = e.clbits

namespace Alike

variable {e e' : Ensemble}

lemma branch? (h : Alike e e') : e'.branch? = e.branch? := by
  funext id
  rw [Ensemble.branch?, h.store, Ensemble.branch?]

lemma branches (h : Alike e e') : e'.branches = e.branches := by
  rw [Ensemble.branches, h.live, h.branch?, Ensemble.branches]

lemma probabilities (h : Alike e e') : e'.probabilities = e.probabilities := by
  rw [Ensemble.probabilities, h.branches, h.qubits, Ensemble.probabilities]

lemma finalState? (h : Alike e e') : e'.finalState? = e.finalState? := by
  rw [Ensemble.finalState?, h.live, h.branch?, Ensemble.finalState?]

lemma measurement (h : Alike e e') (g : Gate) : e'.measurement g = e.measurement g := by
  rw [Ensemble.measurement, h.qubits, h.clbits, Ensemble.measurement]

lemma unitary (h : Alike e e') (g : Gate) : e'.unitary g = e.unitary g := by
  rw [Ensemble.unitary, h.qubits, Ensemble.unitary]

lemma measureOn (h : Alike e e') (qubit clbit : Nat) (ids : List Nat) :
    Alike (e.measureOn qubit clbit ids) (e'.measureOn qubit clbit ids) where
  store := by simp only [Ensemble.measureOn, invalidate, h.store]
  live := by simp only [Ensemble.measureOn, invalidate, h.store, h.live]
  qubits := h.qubits
  clbits := h.clbits

lemma applyOn (h : Alike e e') (targets : List Nat) (m : Matrix Complex) (ids : List Nat) :
    Alike (e.applyOn targets m ids) (e'.applyOn targets m ids) where
  store := by simp only [Ensemble.applyOn, h.store]
  live := h.live
  qubits := h.qubits
  clbits := h.clbits

/-- Looking up a condition changes at most what is remembered. -/
lemma of_targeted (e : Ensemble) (condition : Option Condition) :
    Alike e (e.targeted condition).1 := by
  obtain ⟨hstore, hlive, hqubits, hclbits⟩ := targeted_frame e condition
  exact ⟨hstore, hlive, hqubits, hclbits⟩

lemma symm (h : Alike e e') : Alike e' e :=
  ⟨h.store.symm, h.live.symm, h.qubits.symm, h.clbits.symm⟩

lemma trans {e'' : Ensemble} (h : Alike e e') (h' : Alike e' e'') : Alike e e'' :=
  ⟨h'.store.trans h.store, h'.live.trans h.live, h'.qubits.trans h.qubits,
    h'.clbits.trans h.clbits⟩

/-- What two such ensembles have to remember is the same, so a condition selects the same ids. -/
lemma targeted (h : Alike e e') (hco : e.Coherent) (hco' : e'.Coherent)
    (condition : Option Condition) :
    Alike (e.targeted condition).1 (e'.targeted condition).1 ∧
      (e'.targeted condition).2 = (e.targeted condition).2 := by
  refine ⟨(of_targeted e condition).symm.trans (h.trans (of_targeted e' condition)), ?_⟩
  rw [hco'.targeted_ids, hco.targeted_ids, h.live, h.branch?]

/-- **A gate does the same to both, and they stay alike.** -/
lemma applyGate (h : Alike e e') (hco : e.Coherent) (hco' : e'.Coherent) (g : Gate) :
    Alike (e.applyGate g).1 (e'.applyGate g).1 ∧ (e'.applyGate g).2 = (e.applyGate g).2 := by
  obtain ⟨ht, hids⟩ := h.targeted hco hco' g.condition
  unfold Ensemble.applyGate
  simp only [hids, ht.measurement, ht.unitary]
  split
  · split
    · exact ⟨ht.measureOn _ _ _, rfl⟩
    · exact ⟨ht, rfl⟩
  · split
    · exact ⟨ht.applyOn _ _ _, rfl⟩
    · exact ⟨ht, rfl⟩

lemma feed (h : Alike e e') (hco : e.Coherent) (hco' : e'.Coherent) (gs : List Gate) :
    Alike (QCircuit.feed Ensemble.applyGate e gs).1 (QCircuit.feed Ensemble.applyGate e' gs).1 ∧
      (QCircuit.feed Ensemble.applyGate e' gs).2 = (QCircuit.feed Ensemble.applyGate e gs).2 := by
  induction gs generalizing e e' with
  | nil => exact ⟨h, rfl⟩
  | cons g gs ih =>
    obtain ⟨hstep, hanswer⟩ := h.applyGate hco hco' g
    obtain ⟨hrest, hanswers⟩ := ih hstep (hco.applyGate g) (hco'.applyGate g)
    exact ⟨hrest, congrArg₂ List.cons hanswer hanswers⟩

end Alike

/-- A gate that is refused has looked up its condition and nothing more. -/
lemma applyGate_error {e : Ensemble} {g : Gate} {err : SimulationError}
    (h : (e.applyGate g).2 = .error err) :
    (e.applyGate g).1 = (e.targeted g.condition).1 := by
  unfold applyGate at h ⊢
  dsimp only at h ⊢
  split at h
  · next hg =>
    rw [if_pos hg]
    split at h
    · simp at h
    · rfl
  · next hg =>
    rw [if_neg hg]
    split at h
    · simp at h
    · rfl

/-- Two ensembles that look the same: the same live ids, the same branches at the same ids, and the
same results. -/
structure SameView (e e' : Ensemble) : Prop where
  live : e'.live = e.live
  store : e'.store = e.store
  branches : e'.branches = e.branches
  probabilities : e'.probabilities = e.probabilities
  finalState? : e'.finalState? = e.finalState?

lemma Alike.sameView {e e' : Ensemble} (h : Alike e e') : SameView e e' :=
  ⟨h.live, h.store, h.branches, h.probabilities, h.finalState?⟩

/-- **A gate that is refused leaves no trace.** Whatever gates an ensemble was fed with, accepted or
refused: after one that is refused it looks as before, and whatever gates come later get the same
answers, and make it look the same, as if the refused one had not been there. -/
theorem refused_untraced (n m : Nat) (record : Bool) (gs : List Gate) {g : Gate}
    {err : SimulationError}
    (h : ((feed applyGate (initial n m record) gs).1.applyGate g).2 = .error err) :
    let e := (feed applyGate (initial n m record) gs).1
    let e' := (e.applyGate g).1
    SameView e e' ∧ ∀ later, (feed applyGate e' later).2 = (feed applyGate e later).2 ∧
      SameView (feed applyGate e later).1 (feed applyGate e' later).1 := by
  intro e e'
  have hco : e.Coherent := ((wellFormed_initial n m record).feed gs).toCoherent
  have halike : Alike e e' := by
    rw [show e' = (e.targeted g.condition).1 from applyGate_error h]
    exact Alike.of_targeted e g.condition
  refine ⟨halike.sameView, fun later => ?_⟩
  obtain ⟨hrest, hanswers⟩ := halike.feed hco (hco.applyGate g) later
  exact ⟨hanswers, hrest.sameView⟩

/-- A gate of unknown kind, guarded by a classical bit. -/
def guardedUnknown : Gate :=
  { kind := .custom "FOO", qubits := [0], condition := some ⟨[0], .eq, 0⟩ }

/-- A refused gate whose condition is remembered, and which nothing shows all the same. -/
theorem guardedUnknown_untraced :
    let e := (feed applyGate (initial 1 1 true) [.measure 0 0 none]).1
    let e' := (e.applyGate guardedUnknown).1
    (e.applyGate guardedUnknown).2 = .error (.unsupported "FOO" 0) ∧
      e.cache = [] ∧ e'.cache.map Prod.fst = [⟨[0], .eq, 0⟩] ∧
      SameView e e' ∧ ∀ later, (feed applyGate e' later).2 = (feed applyGate e later).2 ∧
        SameView (feed applyGate e later).1 (feed applyGate e' later).1 :=
  ⟨rfl, rfl, rfl, refused_untraced 1 1 true [.measure 0 0 none] rfl⟩

end QCircuit.Ensemble
