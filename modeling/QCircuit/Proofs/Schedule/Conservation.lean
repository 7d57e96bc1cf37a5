import QCircuit.Proofs.Schedule.Hazards

/-!
What a schedule keeps of the calls made to it.

A call that fails changes nothing. The gates of all others are in the circuit, each as often as it
was asked for and in the slice of the slot that its call returned. Calls that share a qubit get
their slots in the order in which they are made.
-/

namespace QCircuit.Schedule

/-! ### Calls that succeed -/

/-- The calls that succeed, each with the slot it returns. -/
def accepted (s : Schedule) : List Call → List (Call × Nat)
  | [] => []
  | c :: cs =>
    match s.perform c with
    | .ok (s', slot) => (c, slot) :: s'.accepted cs
    | .error _ => s.accepted cs

/-- The calls succeed one after the other, each with its slot. -/
inductive Runs : Schedule → List (Call × Nat) → Schedule → Prop
  | nil (s : Schedule) : Runs s [] s
  | cons {s s₁ s' : Schedule} {c : Call} {slot : Nat} {calls : List (Call × Nat)}
      (h : s.perform c = .ok (s₁, slot)) (rest : Runs s₁ calls s') : Runs s ((c, slot) :: calls) s'

/-- A sequence of calls does what those of them do that succeed. -/
lemma runs_accepted (s : Schedule) (cs : List Call) : Runs s (s.accepted cs) (s.run cs) := by
  induction cs generalizing s with
  | nil => exact .nil s
  | cons c cs ih =>
    rw [run_cons, accepted, attempt]
    cases h : s.perform c with
    | error e => exact ih s
    | ok p => exact .cons h (ih p.1)

lemma mem_of_mem_accepted {s : Schedule} {cs : List Call} {p : Call × Nat}
    (hp : p ∈ s.accepted cs) : p.1 ∈ cs := by
  induction cs generalizing s with
  | nil => simp [accepted] at hp
  | cons c cs ih =>
    rw [accepted] at hp
    split at hp
    · rcases List.mem_cons.mp hp with rfl | hp
      · exact List.mem_cons_self
      · exact List.mem_cons_of_mem _ (ih hp)
    · exact List.mem_cons_of_mem _ (ih hp)

/-- The gates that the calls with a slot ask for and that do something. -/
def gatesAt (calls : List (Call × Nat)) (t : Nat) : List Gate :=
  nonIdentity ((calls.filter (·.2 = t)).flatMap (·.1.gates))

lemma gatesAt_cons (c : Call) (slot : Nat) (calls : List (Call × Nat)) (t : Nat) :
    gatesAt ((c, slot) :: calls) t =
      (if slot = t then nonIdentity c.gates else []) ++ gatesAt calls t := by
  unfold gatesAt
  by_cases h : slot = t <;> simp [h]

namespace Runs

variable {s s' : Schedule} {calls : List (Call × Nat)}

lemma performAll (h : Runs s calls s') : s.performAll (calls.map (·.1)) = .ok s' := by
  induction h with
  | nil s => rfl
  | cons h _ ih => exact performAll_cons_ok.mpr ⟨_, _, h, ih⟩

/-- No call gets a slot that one of its rows has passed. -/
lemma free_le_slot (h : Runs s calls s') (hnd : ∀ p ∈ calls, p.1.qubits.Nodup) {p : Call × Nat}
    (hp : p ∈ calls) {q : Nat} (hq : q ∈ p.1.qubits) : s.free q ≤ p.2 := by
  induction h with
  | nil s => simp at hp
  | cons h _ ih =>
    have hf := perform_fills h (hnd _ List.mem_cons_self)
    rcases List.mem_cons.mp hp with rfl | hp
    · exact hf.reached q hq
    · exact Nat.le_trans (hf.free_le q) (ih (fun r hr => hnd r (List.mem_cons_of_mem _ hr)) hp)

/-- Calls that share a qubit get their slots in order. -/
lemma pairwise_slot (h : Runs s calls s') (hnd : ∀ p ∈ calls, p.1.qubits.Nodup) :
    calls.Pairwise fun a b => (∃ q ∈ a.1.qubits, q ∈ b.1.qubits) → a.2 < b.2 := by
  induction h with
  | nil s => exact .nil
  | cons h rest ih =>
    have hf := perform_fills h (hnd _ List.mem_cons_self)
    have hrest := fun r hr => hnd r (List.mem_cons_of_mem _ hr)
    refine .cons (fun b hb hshare => ?_) (ih hrest)
    obtain ⟨q, hq, hqb⟩ := hshare
    -- the first call leaves the row of the qubit just past its slot
    have hpast := hf.free_mem q hq
    have hle := rest.free_le_slot hrest hb hqb
    simp only at hq ⊢
    omega

/-- **Every slot gets the gates of the calls that return it.** -/
lemma workAt_perm (h : Runs s calls s') (hnd : ∀ p ∈ calls, p.1.qubits.Nodup) (t : Nat) :
    (s'.workAt t).Perm (s.workAt t ++ gatesAt calls t) := by
  induction h with
  | nil s => simp [gatesAt, nonIdentity]
  | @cons s s₁ s' c slot calls h rest ih =>
    have hndc : c.qubits.Nodup := hnd _ List.mem_cons_self
    have hf := perform_fills h hndc
    have hstep : (s₁.workAt t).Perm
        (s.workAt t ++ if slot = t then nonIdentity c.gates else []) := by
      split
      · next ht =>
        subst ht
        exact hf.workAt_slot hndc (perform_qubits_ne_nil h)
      · next ht =>
        rw [hf.workAt_ne (Ne.symm ht), List.append_nil]
    rw [gatesAt_cons, ← List.append_assoc]
    exact (ih fun r hr => hnd r (List.mem_cons_of_mem _ hr)).trans (hstep.append_right _)

end Runs

/-! ### Circuits -/

/-- The gates of a slice of the circuit that do something are those in the cells of its slot. -/
lemma nonIdentity_slice {s : Schedule} {clbits : Nat} {c : Circuit} (h : s.flatten clbits = .ok c)
    (t : Nat) : nonIdentity (c.slices.getD t []) = s.workAt t := by
  obtain ⟨hl, rfl⟩ := flatten_eq_ok_iff.mp h
  by_cases ht : t < s.height
  · simp [ht, nonIdentity_sliceRows hl]
  · have hslice : ((List.range s.height).map fun t => (s.sliceRows t).map (·.1)).getD t [] = [] := by
      simp [ht]
    rw [hslice, workAt_of_height_le (Nat.le_of_not_lt ht)]
    rfl

/-- **A schedule loses, doubles and reorders nothing.** Of the gates that do something the circuit
has exactly those of the calls that succeeded, and slice `t` those of the calls that returned slot
`t`. Calls that share a qubit have increasing slots, and on every qubit the circuit has the gates in
the order of the calls. -/
theorem flatten_conserves (n clbits : Nat) (cs : List Call) {circuit : Circuit}
    (hnd : ∀ c ∈ cs, c.qubits.Nodup)
    (hflat : ((empty n).run cs).flatten clbits = .ok circuit) :
    let calls := (empty n).accepted cs
    let program := nonIdentity (calls.flatMap (·.1.gates))
    (nonIdentity circuit.gates).Perm program ∧
      (∀ t, (nonIdentity (circuit.slices.getD t [])).Perm (gatesAt calls t)) ∧
      (calls.Pairwise fun a b => (∃ q ∈ a.1.qubits, q ∈ b.1.qubits) → a.2 < b.2) ∧
      ∀ q, (nonIdentity circuit.gates).filter (·.names q) = program.filter (·.names q) := by
  intro calls program
  have hruns : Runs (empty n) calls ((empty n).run cs) := runs_accepted (empty n) cs
  have hcalls : ∀ p ∈ calls, p.1.qubits.Nodup := fun p hp => hnd p.1 (mem_of_mem_accepted hp)
  have hagree : Agree (nonIdentity circuit.gates)
      (nonIdentity ((calls.map (·.1)).flatMap Call.gates)) := by
    refine flatten_agree hruns.performAll (fun c hc => ?_) hflat
    obtain ⟨p, hp, rfl⟩ := List.mem_map.mp hc
    exact hcalls p hp
  rw [List.flatMap_map] at hagree
  refine ⟨hagree.perm, fun t => ?_, hruns.pairwise_slot hcalls, hagree.onQubit⟩
  have hwork := hruns.workAt_perm hcalls t
  have hempty : (empty n).workAt t = [] :=
    List.filterMap_eq_nil_iff.mpr fun q _ => active_of_idle (cellAt_empty n q t)
  rw [nonIdentity_slice hflat]
  rwa [hempty, List.nil_append] at hwork

/-- A gate on two qubits, one on a qubit without a row, and two that wait for the first. -/
def sharedCalls : List Call :=
  [.unitary { kind := .standard .cnot, qubits := [0, 1] },
    .unitary { kind := .standard .h, qubits := [7] },
    .unitary { kind := .standard .x, qubits := [1] },
    .measurement [(0, 0), (2, 1)] none]

theorem sharedCalls_conserved :
    ∃ circuit, ((empty 3).run sharedCalls).flatten 2 = .ok circuit ∧
      (nonIdentity circuit.gates).Perm [{ kind := .standard .cnot, qubits := [0, 1] },
        { kind := .standard .x, qubits := [1] }, .measure 0 0 none, .measure 2 1 none] ∧
      (nonIdentity (circuit.slices.getD 1 [])).Perm
        [{ kind := .standard .x, qubits := [1] }, .measure 0 0 none, .measure 2 1 none] := by
  refine ⟨_, rfl, ?_⟩
  have h := flatten_conserves 3 2 sharedCalls (by decide) rfl
  exact ⟨h.1, h.2.1 1⟩

end QCircuit.Schedule
