import QCircuit.Proofs.Ensemble.Coherence

/-!
An ensemble against a plain list of branches.

The plain interpreter keeps nothing but the list: it has no ids, no store and no remembered
conditions, and evaluates a condition on every branch, each time. On every sequence of gates the
ensemble shows the same branches in the same order and gives the same answers.
-/

namespace QCircuit

/-- What a gate makes of one branch that it acts on, or why it is refused. -/
def Gate.action (g : Gate) (qubits clbits : Nat) :
    Except SimulationError (Branch → List Branch) :=
  if g.isMeasure then do
    match ← g.targets qubits with
    | [] => .error (.arity g.name 1 0)
    | q :: _ =>
      let c := g.clbit.getD q
      if c < clbits then .ok (·.measure q c) else .error (.clbitOutOfRange c clbits)
  else do
    let m ← g.matrix
    let targets ← g.targets qubits
    return fun b => [b.apply targets m]

/-- The plain interpreter: an accepted gate replaces, in place, the branches that its condition does
not reject. -/
def plainStep (qubits clbits : Nat) (branches : List Branch) (g : Gate) :
    List Branch × Except SimulationError Unit :=
  match g.action qubits clbits with
  | .error err => (branches, .error err)
  | .ok act =>
    (branches.flatMap fun b =>
      match g.condition with
      | none => act b
      | some c => if c.holds b.clbits then act b else [b], .ok ())

/-- A machine fed with gates one after the other, and its answers. -/
def feed {σ : Type} (step : σ → Gate → σ × Except SimulationError Unit) (s : σ) :
    List Gate → σ × List (Except SimulationError Unit)
  | [] => (s, [])
  | g :: gs =>
    let (s', answer) := step s g
    let (t, answers) := feed step s' gs
    (t, answer :: answers)

namespace Ensemble

/-- The branches after the targeted ones are replaced are the old ones replaced in place. -/
lemma Coherent.flatMap_targeted {e : Ensemble} (h : e.Coherent) (condition : Option Condition)
    (act : Branch → List Branch) :
    (e.live.flatMap fun id => (e.branch? id).toList.flatMap fun b =>
        if id ∈ (e.targeted condition).2 then act b else [b]) =
      e.branches.flatMap fun b => if accepts condition b then act b else [b] := by
  rw [branches, List.filterMap_eq_flatMap_toList, List.flatMap_assoc]
  refine List.flatMap_congr fun id hid => ?_
  obtain ⟨b, hb⟩ := (h.stored id).mp hid
  rw [h.targeted_ids]
  simp [hb, hid]

lemma Coherent.modifyOn_branches {e : Ensemble} (h : e.Coherent) (f : Branch → Branch)
    {ids : List Nat} (hnd : ids.Nodup) :
    (e.modifyOn f ids).branches = e.live.flatMap fun id =>
      (e.branch? id).toList.flatMap fun b => if id ∈ ids then [f b] else [b] := by
  have hlive : (e.modifyOn f ids).live = e.live := rfl
  rw [branches, hlive, List.filterMap_eq_flatMap_toList]
  refine List.flatMap_congr fun id hid => ?_
  obtain ⟨b, hb⟩ := (h.stored id).mp hid
  rw [modifyOn_branch? _ _ hnd, hb]
  split <;> simp

/-- A measurement that is accepted, in terms of the plain action. -/
lemma measurement_action (e : Ensemble) {g : Gate} (hg : g.isMeasure = true) :
    g.action e.qubits e.clbits = (e.measurement g).map fun p b => b.measure p.1 p.2 := by
  unfold Gate.action measurement
  rw [if_pos hg]
  cases g.targets e.qubits with
  | error err => rfl
  | ok targets =>
    cases targets with
    | nil => rfl
    | cons q qs =>
      by_cases hc : g.clbit.getD q < e.clbits <;> simp [Except.map, bind, Except.bind, hc, pure,
        Except.pure]

lemma unitary_action (e : Ensemble) {g : Gate} (hg : g.isMeasure = false) :
    g.action e.qubits e.clbits = (e.unitary g).map fun p b => [b.apply p.1 p.2] := by
  unfold Gate.action unitary
  rw [if_neg (by simp [hg])]
  cases g.matrix with
  | error err => rfl
  | ok m => cases g.targets e.qubits <;> rfl

/-- **One gate on an ensemble is one step of the plain interpreter.** -/
theorem Coherent.applyGate_plain {e : Ensemble} (h : e.Coherent) (g : Gate) :
    ((e.applyGate g).1.branches, (e.applyGate g).2) =
      plainStep e.qubits e.clbits e.branches g := by
  have hco := h.targeted g.condition
  have hnd := h.targeted_nodup g.condition
  obtain ⟨hstore, hlive, hqubits, hclbits⟩ := targeted_frame e g.condition
  have hbranch : (e.targeted g.condition).1.branch? = e.branch? := by
    funext id
    rw [branch?, hstore, branch?]
  have hbranches : (e.targeted g.condition).1.branches = e.branches := by
    rw [branches, hlive, hbranch, branches]
  have hcond : ∀ act : Branch → List Branch,
      (fun b => match g.condition with
        | none => act b
        | some c => if c.holds b.clbits then act b else [b]) =
      fun b => if accepts g.condition b then act b else [b] := by
    intro act
    funext b
    cases g.condition <;> rfl
  unfold Ensemble.applyGate plainStep
  simp only [hcond]
  by_cases hg : g.isMeasure = true
  · rw [if_pos hg, ← hqubits, ← hclbits, measurement_action _ hg]
    cases (e.targeted g.condition).1.measurement g with
    | error err => simp [Except.map, hbranches]
    | ok p =>
      have hm := hco.measureOn_branches hnd (h.targeted_live g.condition) p.1 p.2
      rw [hlive, hbranch, h.flatMap_targeted] at hm
      simp [Except.map, hm]
  · rw [if_neg hg, ← hqubits, ← hclbits, unitary_action _ (by simpa using hg)]
    cases (e.targeted g.condition).1.unitary g with
    | error err => simp [Except.map, hbranches]
    | ok p =>
      have ha := hco.modifyOn_branches (·.apply p.1 p.2) hnd
      rw [hlive, hbranch, h.flatMap_targeted] at ha
      simp [Except.map, applyOn_eq, ha]

/-- Gates change neither the number of qubits nor that of classical bits. -/
lemma applyGate_size (e : Ensemble) (g : Gate) :
    (e.applyGate g).1.qubits = e.qubits ∧ (e.applyGate g).1.clbits = e.clbits := by
  obtain ⟨-, -, hqubits, hclbits⟩ := targeted_frame e g.condition
  unfold Ensemble.applyGate
  dsimp only
  split <;> split <;> exact ⟨hqubits, hclbits⟩

/-- What every gate keeps, refused or not, a run of gates keeps, wherever it ends. -/
lemma applyGates_keeps {P : Ensemble → Prop} (hstep : ∀ e g, P e → P (e.applyGate g).1)
    {e : Ensemble} (h : P e) (gs : List Gate) : P (e.applyGates gs).1 := by
  induction gs generalizing e with
  | nil => exact h
  | cons g gs ih =>
    have hg := hstep e g h
    rw [applyGates]
    split
    · next e' heq =>
      rw [heq] at hg
      exact ih hg
    · next e' err heq =>
      rw [heq] at hg
      exact hg

lemma Coherent.feed_plain {e : Ensemble} (h : e.Coherent) (gs : List Gate) :
    ((feed Ensemble.applyGate e gs).1.branches, (feed Ensemble.applyGate e gs).2) =
      feed (plainStep e.qubits e.clbits) e.branches gs := by
  induction gs generalizing e with
  | nil => rfl
  | cons g gs ih =>
    obtain ⟨hqubits, hclbits⟩ := applyGate_size e g
    have hstep := h.applyGate_plain g
    have hrest := ih (h.applyGate g)
    rw [hqubits, hclbits] at hrest
    simp only [feed, ← hstep, ← hrest]

/-- **The ensemble refines the plain interpreter.** Whatever gates are fed to it, accepted or
refused, conditioned or not, the live branches in order are the plain list, and every gate gets
the same answer. -/
theorem feed_branches_eq_plain (qubits clbits : Nat) (record : Bool) (gs : List Gate) :
    (feed applyGate (initial qubits clbits record) gs).1.branches =
        (feed (plainStep qubits clbits) [Branch.initial qubits clbits record] gs).1 ∧
      (feed applyGate (initial qubits clbits record) gs).2 =
        (feed (plainStep qubits clbits) [Branch.initial qubits clbits record] gs).2 := by
  have h := (coherent_initial qubits clbits record).feed_plain gs
  have hstart : (initial qubits clbits record).branches = [.initial qubits clbits record] := rfl
  rw [hstart] at h
  exact ⟨congrArg Prod.fst h, congrArg Prod.snd h⟩

end Ensemble
end QCircuit
