import Mathlib
import QCircuit.Proofs.Compile.Gates
import QCircuit.Proofs.Ensemble.Representation
import QCircuit.Proofs.Graph.Supply
import QCircuit.Proofs.Schedule.Contents

/-!
Compiled circuits are accepted.

Nothing in the compiler looks for repeated operands, and still no gate of a circuit has any: the
graph would have no order, different slots of a call are different qubits, and different qubits get
different indices. Every index is checked to be one of a live bit. So the engine never has to refuse
a gate for the bits it is on.
-/

namespace QCircuit

open QCircuit.Graph

/-- The classical bits of a gate are among the first `m`, and a measurement has one to go to. -/
structure Gate.ClbitsBelow (m : Nat) (g : Gate) : Prop where
  condition : ∀ c ∈ g.condition, ∀ b ∈ c.clbits, b < m
  clbit : ∀ b ∈ g.clbit, b < m
  measured : g.isMeasure → g.clbit.isSome

/-- A gate with operands that make sense on `n` qubits and `m` classical bits. -/
structure Gate.Admissible (n m : Nat) (g : Gate) : Prop extends Gate.ClbitsBelow m g where
  qubits : ∀ q ∈ g.qubits, q < n
  nodup : g.qubits.Nodup

lemma Gate.admissible_identity {n q : Nat} (m : Nat) (hq : q < n) :
    (identity q).Admissible n m where
  condition := by simp [identity]
  clbit := by simp [identity]
  measured := by simp [identity, isMeasure, Kind.isMeasure]
  qubits := by simpa [identity] using hq
  nodup := by simp [identity]

/-! ### Indices of live bits -/

namespace Numbering

/-- The index of a bit, if it is that of a live one. -/
def liveIndex? (n : Numbering) (kind : BitKind) (b : Nat) : Option Nat :=
  ((n.map kind).get? b).filter (· < n.live kind)

lemma liveIndex?_eq_some {n : Numbering} {kind : BitKind} {b d : Nat} :
    n.liveIndex? kind b = some d ↔ (n.map kind).get? b = some d ∧ d < n.live kind := by
  simp [liveIndex?, Option.filter_eq_some_iff]

/-- Different qubits have different indices, also when some are declared twice. -/
lemma places_liveIndex? {g : Graph} {vs : List Nat} {n : Numbering}
    (hn : ofVertices g vs = .ok n) : Places n n.liveIndex? := by
  refine ⟨fun {kind v b d} h => liveIndex?_eq_some.mpr (dense_ok.mp h), fun {a b d} ha hb => ?_⟩
  obtain ⟨bits, hbits⟩ := exists_map_eq hn .qubit
  have ha := (liveIndex?_eq_some.mp ha).1
  have hb := (liveIndex?_eq_some.mp hb).1
  rw [hbits, DenseMap.get?_ofList_last] at ha hb
  exact Option.some.inj (ha.1.symm.trans hb.1)

/-- A gate that is asked for uses live classical bits only. -/
lemma Asks.clbitsBelow {g : Graph} {n : Numbering} {x : Gate} (h : n.Asks g x) :
    x.ClbitsBelow n.liveClbits := by
  cases h with
  | named params hm hlive hunder =>
    exact ⟨hunder.below, by simp [Gate.named], by simp [Gate.named, Gate.isMeasure, hm]⟩
  | measure hlive htarget hunder =>
    exact ⟨hunder.below, by simpa [Gate.measure] using htarget, by simp [Gate.measure]⟩

end Numbering

/-! ### Circuits -/

namespace Graph

/-- **What a list of vertices is compiled to**, if every gate and call of the graph has its qubits
brought in, none of them twice. -/
theorem compileVertices_admissible {g : Graph} (hsup : g.Supplied) {vs : List Nat} {c : Circuit}
    (h : g.compileVertices vs = .ok c) : ∀ x ∈ c.gates, x.Admissible c.qubits c.clbits := by
  obtain ⟨n, css, s, hn, hcss, hs, hc⟩ := compileVertices_ok.mp h
  have hgates : ∀ k ∈ css.flatten, ∀ x ∈ k.gates, x.Admissible n.liveQubits n.liveClbits := by
    intro k hk x hx
    obtain ⟨cs, hcs, hk⟩ := List.mem_flatten.mp hk
    obtain ⟨v, -, htrace⟩ := exists_of_mapM hcss hcs
    have hasks := trace_asks htrace k hk x hx
    obtain ⟨hnd, -⟩ := trace_onQubits_word (Numbering.places_liveIndex? hn) hsup htrace k hk
    exact { hasks.clbitsBelow with
      qubits := hasks.qubits_lt
      nodup := Schedule.nodup_of_mem_gates hnd hx }
  obtain ⟨⟨hq, hm⟩, hall⟩ :=
    Schedule.flatten_holds hs (fun q hq => Gate.admissible_identity _ hq) hgates hc
  rw [hq, hm]
  exact hall

end Graph

/-! ### The engine -/

/-- Whether a gate was refused for the bits it is on. -/
def SimulationError.isOperandFault : SimulationError → Bool
  | .qubitOutOfRange .. | .duplicateQubit .. | .clbitOutOfRange .. => true
  | _ => false

lemma Gate.Standard.matrix_fault {g : Gate.Standard} {angle : Option Float} {err : SimulationError}
    (h : g.matrix angle = .error err) : err.isOperandFault = false := by
  cases g <;> cases angle <;>
    simp only [Standard.matrix, reduceCtorEq, Except.error.injEq] at h <;> exact h ▸ rfl

lemma Gate.matrix_fault {g : Gate} {err : SimulationError} (h : g.matrix = .error err) :
    err.isOperandFault = false := by
  unfold Gate.matrix at h
  dsimp only at h
  split at h
  · obtain rfl := Except.error.inj h
    rfl
  · obtain rfl := Except.error.inj h
    rfl
  · next std _ _ =>
    cases hm : std.matrix g.angle with
    | error err' =>
      rw [hm] at h
      obtain rfl := Except.error.inj h
      exact Standard.matrix_fault hm
    | ok m =>
      simp only [hm, bind, Except.bind] at h
      split at h
      · simp [pure, Except.pure] at h
      · obtain rfl := Except.error.inj h
        rfl

namespace Ensemble

lemma applyGate_fault {e : Ensemble} {g : Gate} (hg : g.Admissible e.qubits e.clbits)
    {err : SimulationError} (h : (e.applyGate g).2 = .error err) : err.isOperandFault = false := by
  obtain ⟨-, -, hqubits, hclbits⟩ := targeted_frame e g.condition
  have htargets : g.targets (e.targeted g.condition).1.qubits = .ok g.qubits :=
    Gate.targets_ok.mpr ⟨rfl, by rw [hqubits]; exact hg.qubits, hg.nodup⟩
  unfold Ensemble.applyGate at h
  dsimp only at h
  split at h
  · next hm =>
    split at h
    · simp at h
    · next herr =>
      obtain rfl := Except.error.inj h
      unfold measurement at herr
      rw [htargets] at herr
      obtain ⟨c, hc⟩ := Option.isSome_iff_exists.mp (hg.measured hm)
      have hlt : c < (e.targeted g.condition).1.clbits := hclbits ▸ hg.clbit c hc
      cases hqs : g.qubits with
      | nil =>
        simp only [hqs, bind, Except.bind] at herr
        obtain rfl := Except.error.inj herr
        rfl
      | cons q qs => simp [hqs, hc, hlt, bind, Except.bind, pure, Except.pure] at herr
  · split at h
    · simp at h
    · next herr =>
      obtain rfl := Except.error.inj h
      unfold unitary at herr
      cases hm : g.matrix with
      | error err' =>
        rw [hm] at herr
        obtain rfl := Except.error.inj herr
        exact Gate.matrix_fault hm
      | ok m => simp [hm, htargets, bind, Except.bind, pure, Except.pure] at herr

lemma applyGates_fault {e : Ensemble} {gs : List Gate}
    (hgs : ∀ g ∈ gs, g.Admissible e.qubits e.clbits) {err : SimulationError}
    (h : (e.applyGates gs).2 = .error err) : err.isOperandFault = false := by
  induction gs generalizing e with
  | nil => simp [applyGates] at h
  | cons g gs ih =>
    obtain ⟨hqubits, hclbits⟩ := applyGate_size e g
    rw [applyGates] at h
    split at h
    · next e' heq =>
      rw [heq] at hqubits hclbits
      refine ih (fun x hx => ?_) h
      rw [hqubits, hclbits]
      exact hgs x (List.mem_cons_of_mem _ hx)
    · next e' err' heq =>
      obtain rfl := Except.error.inj h
      exact applyGate_fault (hgs g List.mem_cons_self) (by rw [heq])

lemma applyGates_size (e : Ensemble) (gs : List Gate) :
    (e.applyGates gs).1.qubits = e.qubits ∧ (e.applyGates gs).1.clbits = e.clbits := by
  refine applyGates_keeps (P := fun e' => e'.qubits = e.qubits ∧ e'.clbits = e.clbits)
    (fun e' g h => ?_) ⟨rfl, rfl⟩ gs
  obtain ⟨hqubits, hclbits⟩ := applyGate_size e' g
  exact ⟨hqubits.trans h.1, hclbits.trans h.2⟩

lemma runSlices_fault {e : Ensemble} {slices : List (List Gate)}
    (hgs : ∀ g ∈ slices.flatten, g.Admissible e.qubits e.clbits) {err : SimulationError}
    (h : (e.runSlices slices).2 = .error err) : err.isOperandFault = false := by
  induction slices generalizing e with
  | nil =>
    rw [runSlices] at h
    split at h
    · obtain rfl := Except.error.inj h
      rfl
    · simp at h
  | cons gs slices ih =>
    obtain ⟨hqubits, hclbits⟩ := applyGates_size e (gs.filter (!·.isIdentity))
    rw [runSlices] at h
    split at h
    · next e' heq =>
      rw [heq] at hqubits hclbits
      refine ih (fun x hx => ?_) h
      have hsize : e'.endSlice.qubits = e.qubits ∧ e'.endSlice.clbits = e.clbits :=
        ⟨hqubits, hclbits⟩
      rw [hsize.1, hsize.2]
      exact hgs x (by simp [hx])
    · next e' err' heq =>
      obtain rfl := Except.error.inj h
      refine applyGates_fault (fun x hx => ?_) (congrArg Prod.snd heq)
      exact hgs x (by simp [List.mem_of_mem_filter hx])

/-- **A circuit of gates with operands that make sense is never refused for them.** -/
theorem simulate_fault {c : Circuit} (hc : ∀ g ∈ c.gates, g.Admissible c.qubits c.clbits)
    {record : Bool} {err : SimulationError} (h : simulate c record = .error err) :
    err.isOperandFault = false := by
  unfold simulate at h
  split at h
  · simp at h
  · next e err' heq =>
    obtain rfl := Except.error.inj h
    exact runSlices_fault (e := initial c.qubits c.clbits record) hc (congrArg Prod.snd heq)

end Ensemble

/-- **Compiled circuits are accepted by the engine.** Whatever builder calls a graph comes from, when
it is compiled, whole or one of its parts, then every gate is on distinct qubits of the circuit, is
measured into and conditioned on classical bits of the circuit, and the engine refuses none for its
operands. -/
theorem compile_admissible (cs : List Graph.Call) (record : Bool) {c : Circuit}
    (h : (empty.run cs).compile = .ok c ∨ ∃ parts part, (empty.run cs).components = .ok parts ∧
      part ∈ parts ∧ (empty.run cs).compileVertices part = .ok c) :
    (∀ g ∈ c.gates, g.Admissible c.qubits c.clbits) ∧
      ∀ err, Ensemble.simulate c record = .error err → err.isOperandFault = false := by
  obtain ⟨parts, vs, hparts, hvs⟩ : ∃ parts vs, (empty.run cs).components = .ok parts ∧
      (empty.run cs).compileVertices vs = .ok c := by
    rcases h with h | ⟨parts, part, hparts, -, hc⟩
    · obtain ⟨parts, hparts, hc⟩ := bind_eq_ok.mp h
      exact ⟨parts, parts.flatten, hparts, hc⟩
    · exact ⟨parts, part, hparts, hc⟩
  obtain ⟨order, horder, -⟩ := bind_eq_ok.mp hparts
  have hgates := compileVertices_admissible (run_supplied (mapError_eq_ok.mp horder)) hvs
  exact ⟨hgates, fun err => Ensemble.simulate_fault hgates⟩

/-- A call whose body takes its qubits the other way round, a measurement, and a gate that depends
on the outcome. -/
def flipPair : List Graph.Call :=
  [.register ⟨.qubit, 0, 2⟩, .register ⟨.clbit, 0, 1⟩, .define "pair" 0 2 0,
    .callee "CNOT" [] [1, 0] [] [] false, .caller "pair" [] [1, 0] [], .op "MEASURE" [] [0] [0],
    .op "X" [] [1] [], .condition 9 [0] .eq 1]

theorem flipPair_admissible :
    ∃ c, (empty.run flipPair).compile = .ok c ∧
      c.gates.map (·.qubits) = [[0, 1], [0], [1], [1]] ∧
        (∀ g ∈ c.gates, g.Admissible 2 1) ∧
          ∀ err, Ensemble.simulate c false = .error err → err.isOperandFault = false := by
  obtain ⟨c, hcircuit⟩ : ∃ c : Circuit, c = ⟨[
      [{ kind := .standard .cnot, qubits := [0, 1] }], [.measure 0 0 none, .identity 1],
      [{ kind := .standard .x, qubits := [1], condition := some ⟨[0], .eq, 1⟩ }]], 2, 1⟩ :=
    ⟨_, rfl⟩
  have hc : (empty.run flipPair).compile = .ok c := by
    rw [hcircuit]
    cbv
  obtain ⟨hgates, hfault⟩ := compile_admissible flipPair false (Or.inl hc)
  subst hcircuit
  exact ⟨_, hc, rfl, hgates, hfault⟩

end QCircuit
