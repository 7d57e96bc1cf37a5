import QCircuit.Proofs.Ensemble.Representation

/-!
Recorded histories.

Nothing that a simulation does looks at the histories of its branches, so forgetting them before a
run is forgetting them after it; and a simulation that records nothing is one that has forgotten.
What is recorded are the amplitudes at the end of every slice, once on each branch that is live
there, and children take over what their parent has recorded.
-/

namespace QCircuit

namespace Branch

/-- The branch without its history. -/
def forget (b : Branch) : Branch := { b with history := none }

lemma forget_child (b : Branch) (qubit clbit : Nat) (outcome : Bool) (p : Float) :
    (b.child qubit clbit outcome p).forget = b.forget.child qubit clbit outcome p := rfl

lemma forget_measure (b : Branch) (qubit clbit : Nat) :
    b.forget.measure qubit clbit = (b.measure qubit clbit).map forget := by
  unfold measure
  rw [List.map_filterMap]
  refine List.filterMap_congr fun p _ => ?_
  have hweight : b.forget.weight = b.weight := rfl
  by_cases hp : b.weight * p.2 < epsilon
  · simp [hweight, hp]
  · simp [hweight, hp, forget_child]

end Branch

namespace Ensemble

/-! ### Forgetting -/

/-- A store without the histories of its branches. -/
def forgetStore (store : Array (Option Branch)) : Array (Option Branch) :=
  store.map (·.map Branch.forget)

/-- The ensemble without the histories of its branches. -/
def forget (e : Ensemble) : Ensemble := { e with store := forgetStore e.store }

lemma forgetStore_join (store : Array (Option Branch)) (id : Nat) :
    ((forgetStore store)[id]?).join = (store[id]?).join.map Branch.forget := by
  unfold forgetStore
  rw [Array.getElem?_map]
  rcases store[id]? with _ | _ | b <;> rfl

lemma forget_branch? (e : Ensemble) (id : Nat) :
    e.forget.branch? id = (e.branch? id).map Branch.forget := forgetStore_join e.store id

lemma forget_initial (qubits clbits : Nat) (record : Bool) :
    (initial qubits clbits record).forget = initial qubits clbits false := by
  simp [initial, forget, forgetStore, Branch.initial, Branch.forget]

lemma forget_remember (e : Ensemble) (c : Condition) :
    e.forget.remember c = (e.remember c).forget := by
  have hany : ∀ id, (e.forget.branch? id).any (c.holds ·.clbits) =
      (e.branch? id).any (c.holds ·.clbits) := by
    intro id
    rw [forget_branch?]
    cases e.branch? id <;> rfl
  simp only [remember, hany]
  rfl

lemma forget_targeted (e : Ensemble) (condition : Option Condition) :
    e.forget.targeted condition =
      ((e.targeted condition).1.forget, (e.targeted condition).2) := by
  cases condition with
  | none => rfl
  | some c =>
    have hcache : e.forget.cache = e.cache := rfl
    by_cases hc : (e.cache.lookup c).isSome
    · simp only [targeted, hcache, hc, if_true]
      rfl
    · simp only [targeted, hcache, hc, forget_remember]
      rfl

/-- A change of single branches that forgetting turns into another change. -/
lemma forget_modifyOn (e : Ensemble) (f f' : Branch → Branch)
    (hf : ∀ b, (f b).forget = f' b.forget) (ids : List Nat) :
    e.forget.modifyOn f' ids = (e.modifyOn f ids).forget := by
  have hstep : ∀ (store : Array (Option Branch)) (id : Nat),
      (forgetStore store).modify id (·.map f') = forgetStore (store.modify id (·.map f)) := by
    intro store id
    refine Array.ext_getElem? fun k => ?_
    simp only [forgetStore, Array.getElem?_modify, Array.getElem?_map]
    split
    · rcases store[k]? with _ | _ | b <;> simp [hf]
    · rfl
  have hrun : ∀ store : Array (Option Branch),
      ids.foldl (fun s id => s.modify id (·.map f')) (forgetStore store) =
        forgetStore (ids.foldl (fun s id => s.modify id (·.map f)) store) := by
    induction ids with
    | nil => exact fun _ => rfl
    | cons id ids ih =>
      intro store
      rw [List.foldl_cons, List.foldl_cons, hstep, ih]
  simp only [modifyOn, forget, hrun]

lemma forget_split (qubit clbit : Nat) (s : Array (Option Branch) × List (Nat × List Nat))
    (parent : Nat) :
    split qubit clbit (forgetStore s.1, s.2) parent =
      (forgetStore (split qubit clbit s parent).1, (split qubit clbit s parent).2) := by
  unfold split
  rw [forgetStore_join]
  cases (s.1[parent]?).join with
  | none => rfl
  | some b => simp [forgetStore, Branch.forget_measure, Array.map_setIfInBounds]

lemma forget_measureOn (e : Ensemble) (qubit clbit : Nat) (ids : List Nat) :
    e.forget.measureOn qubit clbit ids = (e.measureOn qubit clbit ids).forget := by
  have hrun : ∀ s : Array (Option Branch) × List (Nat × List Nat),
      ids.foldl (split qubit clbit) (forgetStore s.1, s.2) =
        (forgetStore (ids.foldl (split qubit clbit) s).1,
          (ids.foldl (split qubit clbit) s).2) := by
    induction ids with
    | nil => exact fun _ => rfl
    | cons id ids ih =>
      intro s
      rw [List.foldl_cons, List.foldl_cons, forget_split, ih]
  have hstart := hrun (e.store, [])
  simp only [measureOn, forget, hstart]
  rfl

/-- **Nothing that a gate does depends on histories.** -/
lemma forget_applyGate (e : Ensemble) (g : Gate) :
    e.forget.applyGate g = ((e.applyGate g).1.forget, (e.applyGate g).2) := by
  have hmeasurement : ∀ e : Ensemble, e.forget.measurement g = e.measurement g := fun _ => rfl
  have hunitary : ∀ e : Ensemble, e.forget.unitary g = e.unitary g := fun _ => rfl
  have happly : ∀ (e : Ensemble) (targets : List Nat) (m : Matrix Complex) (ids : List Nat),
      e.forget.applyOn targets m ids = (e.applyOn targets m ids).forget :=
    fun e targets m ids =>
      e.forget_modifyOn (·.apply targets m) (·.apply targets m) (fun _ => rfl) ids
  unfold applyGate
  simp only [forget_targeted, hmeasurement, hunitary]
  split
  · split <;> simp [forget_measureOn]
  · split <;> simp [happly]

lemma forget_applyGates (e : Ensemble) (gs : List Gate) :
    e.forget.applyGates gs = ((e.applyGates gs).1.forget, (e.applyGates gs).2) := by
  induction gs generalizing e with
  | nil => rfl
  | cons g gs ih =>
    rw [applyGates, applyGates, forget_applyGate]
    rcases e.applyGate g with ⟨e', err | _⟩
    · rfl
    · exact ih e'

lemma forget_endSlice (e : Ensemble) : e.forget.endSlice = e.endSlice.forget :=
  e.forget_modifyOn Branch.record Branch.record (fun _ => rfl) e.live

lemma forget_runSlices (e : Ensemble) (slices : List (List Gate)) :
    e.forget.runSlices slices = ((e.runSlices slices).1.forget, (e.runSlices slices).2) := by
  induction slices generalizing e with
  | nil =>
    have hlive : e.forget.live = e.live := rfl
    rw [runSlices, runSlices, hlive]
    split <;> rfl
  | cons gates slices ih =>
    rw [runSlices, runSlices, forget_applyGates]
    rcases e.applyGates (gates.filter (!·.isIdentity)) with ⟨e', err | _⟩
    · rfl
    · simp only [forget_endSlice, ih]

/-- A simulation that records nothing is one that records and forgets. -/
lemma simulate_false (c : Circuit) : simulate c false = (simulate c true).map forget := by
  unfold simulate run
  rw [← forget_initial c.qubits c.clbits true, forget_runSlices]
  rcases (initial c.qubits c.clbits true).runSlices c.slices with ⟨e, err | _⟩ <;> rfl

end Ensemble

/-! ### Recording -/

namespace Branch

/-- A history of `k` slices. -/
def Recorded (k : Nat) (b : Branch) : Prop := b.history.map Array.size = some k

/-- The branch is as it was last recorded. -/
def UpToDate (b : Branch) : Prop := b.history.bind Array.back? = some b.amplitudes

lemma Recorded.record {k : Nat} {b : Branch} (h : b.Recorded k) :
    b.record.Recorded (k + 1) ∧ b.record.UpToDate := by
  obtain ⟨hist, hhist, rfl⟩ := Option.map_eq_some_iff.mp h
  simp [Recorded, UpToDate, Branch.record, hhist]

/-- What becomes of a branch under a gate has the history of that branch. -/
lemma Recorded.action {k n m : Nat} {g : Gate} {b : Branch} {act : Branch → List Branch}
    (h : b.Recorded k) (hact : g.action n m = .ok act) : ∀ b' ∈ act b, b'.Recorded k := by
  intro b' hb'
  rcases Gate.action_cases hact with ⟨q, c, -, -, rfl⟩ | ⟨targets, u, rfl⟩
  · obtain ⟨outcome, p, rfl⟩ := exists_child_of_mem_measure hb'
    exact h
  · obtain rfl := List.mem_singleton.mp hb'
    exact h

end Branch

namespace Ensemble

/-- Between two gates: the bookkeeping is right, and every live branch has recorded `k` slices. -/
structure Recorded (k : Nat) (e : Ensemble) : Prop extends Coherent e where
  recorded : ∀ b ∈ e.branches, b.Recorded k

lemma recorded_initial (n m : Nat) : (initial n m true).Recorded 0 where
  toCoherent := coherent_initial n m true
  recorded := by
    intro b hb
    obtain rfl : b = .initial n m true := List.mem_singleton.mp hb
    rfl

section Step

variable {k : Nat} {e : Ensemble}

lemma Recorded.applyGate (h : e.Recorded k) (g : Gate) : (e.applyGate g).1.Recorded k where
  toCoherent := h.toCoherent.applyGate g
  recorded := by
    have hplain := congrArg Prod.fst (h.toCoherent.applyGate_plain g)
    dsimp only at hplain
    rw [hplain]
    exact plainStep_forall (fun act hact b hb => hb.action hact) h.recorded

lemma Coherent.endSlice_branches (h : e.Coherent) :
    e.endSlice.branches = e.branches.map Branch.record := by
  have hmodify := h.modifyOn_branches Branch.record h.nodup
  have hend : e.endSlice = e.modifyOn Branch.record e.live := rfl
  rw [hend, hmodify, branches, List.map_filterMap, List.filterMap_eq_flatMap_toList]
  refine List.flatMap_congr fun id hid => ?_
  cases e.branch? id <;> simp [hid]

/-- At the end of a slice every live branch records one more, itself as it is. -/
lemma Recorded.endSlice (h : e.Recorded k) :
    e.endSlice.Recorded (k + 1) ∧ ∀ b ∈ e.endSlice.branches, b.UpToDate := by
  have hbranches := h.toCoherent.endSlice_branches
  have hrecord : ∀ b ∈ e.endSlice.branches, b.Recorded (k + 1) ∧ b.UpToDate := by
    intro b hb
    rw [hbranches] at hb
    obtain ⟨b₀, hb₀, rfl⟩ := List.mem_map.mp hb
    exact (h.recorded b₀ hb₀).record
  have hco : e.endSlice.Coherent :=
    h.toCoherent.modifyOn (f := Branch.record) (fun _ => rfl) h.nodup
  exact ⟨⟨hco, fun b hb => (hrecord b hb).1⟩, fun b hb => (hrecord b hb).2⟩

/-- A run over slices: each is recorded, and after the last one nothing changes any more. -/
lemma Recorded.runSlices {slices : List (List Gate)} {e' : Ensemble} (h : e.Recorded k)
    (hlast : 0 < k → ∀ b ∈ e.branches, b.UpToDate) (hrun : e.runSlices slices = (e', .ok ())) :
    e'.Recorded (k + slices.length) ∧
      (0 < k + slices.length → ∀ b ∈ e'.branches, b.UpToDate) := by
  induction slices generalizing k e with
  | nil =>
    rw [Ensemble.runSlices] at hrun
    split at hrun
    · simp at hrun
    · obtain ⟨rfl, -⟩ := Prod.mk.inj hrun
      exact ⟨h, hlast⟩
  | cons gates slices ih =>
    have hgates := applyGates_keeps (fun _ g hk => hk.applyGate g) h (gates.filter (!·.isIdentity))
    rw [Ensemble.runSlices] at hrun
    split at hrun
    · next e₁ heq =>
      rw [heq] at hgates
      obtain ⟨hend, hdate⟩ := hgates.endSlice
      have := ih hend (fun _ => hdate) hrun
      rwa [Nat.add_right_comm, Nat.add_assoc] at this
    · simp at hrun

end Step

/-- **Recording does not interfere.** A circuit is simulated with and without recording, and either
both fail with the same error, or both succeed with the same live ids and the same branches under
them, apart from the histories. With recording, every live branch has one entry for each slice of
the circuit, and the last one, if there is one, holds the amplitudes that the branch ends with. -/
theorem simulate_recorded (c : Circuit) :
    (∃ err, simulate c true = .error err ∧ simulate c false = .error err) ∨
      ∃ e e', simulate c true = .ok e ∧ simulate c false = .ok e' ∧ e'.live = e.live ∧
        (∀ id, e'.branch? id = (e.branch? id).map fun b => { b with history := none }) ∧
        ∀ id ∈ e.live, ∃ b history, e.branch? id = some b ∧ b.history = some history ∧
          history.size = c.depth ∧ (0 < c.depth → history.back? = some b.amplitudes) := by
  cases hsim : simulate c true with
  | error err => exact .inl ⟨err, rfl, by rw [simulate_false, hsim]; rfl⟩
  | ok e =>
    refine .inr ⟨e, e.forget, rfl, by rw [simulate_false, hsim]; rfl, rfl, e.forget_branch?, ?_⟩
    intro id hid
    have hrun : (initial c.qubits c.clbits true).runSlices c.slices = (e, .ok ()) := by
      unfold simulate run at hsim
      split at hsim
      · next heq => rw [heq, Except.ok.inj hsim]
      · simp at hsim
    obtain ⟨hrec, hdate⟩ := (recorded_initial c.qubits c.clbits).runSlices (by simp) hrun
    obtain ⟨b, hb⟩ := (hrec.stored id).mp hid
    have hmem : b ∈ e.branches := List.mem_filterMap.mpr ⟨id, hid, hb⟩
    obtain ⟨history, hhistory, hsize⟩ := Option.map_eq_some_iff.mp (hrec.recorded b hmem)
    refine ⟨b, history, hb, hhistory, ?_, fun hpos => ?_⟩
    · rw [hsize, Nat.zero_add, Circuit.depth]
    · have hlast := hdate (by simpa [Circuit.depth] using hpos) b hmem
      simpa [Branch.UpToDate, hhistory] using hlast

/-- Half of the weight is measured as 0 and half as 1; a gate is guarded by the outcome. -/
def measuredHalf : Circuit where
  slices := [[{ kind := .standard .h, qubits := [0] }], [.measure 0 0 none],
    [{ kind := .standard .x, qubits := [1], condition := some ⟨[0], .eq, 1⟩ }]]
  qubits := 2
  clbits := 1

/-- Both outcomes are recorded, each with the slice before the measurement. -/
theorem measuredHalf_recorded :
    ∃ e e', simulate measuredHalf true = .ok e ∧ simulate measuredHalf false = .ok e' ∧
      e.live = [1, 2] ∧ e'.live = [1, 2] ∧ e.branches.map (·.clbits) = [[false], [true]] ∧
      ∀ id ∈ e.live, ∃ b history, e.branch? id = some b ∧ b.history = some history ∧
        history.size = 3 ∧ history.back? = some b.amplitudes ∧
          e'.branch? id = some { b with history := none } := by
  have hrun : (simulate measuredHalf true).toOption.map
      (fun e => (e.live, e.branches.map (·.clbits))) = some ([1, 2], [[false], [true]]) := by
    decide +kernel
  rcases simulate_recorded measuredHalf with ⟨err, herr, -⟩ | ⟨e, e', he, he', hsame, hbranch, hall⟩
  · rw [herr] at hrun
    simp [Except.toOption] at hrun
  · rw [he] at hrun
    obtain ⟨hlive, hclbits⟩ := Prod.mk.inj (Option.some.inj hrun)
    refine ⟨e, e', he, he', hlive, hsame.trans hlive, hclbits, fun id hid => ?_⟩
    obtain ⟨b, history, hb, hhistory, hsize, hlast⟩ := hall id hid
    exact ⟨b, history, hb, hhistory, hsize, hlast (by decide), by rw [hbranch, hb]; rfl⟩

end Ensemble
end QCircuit
