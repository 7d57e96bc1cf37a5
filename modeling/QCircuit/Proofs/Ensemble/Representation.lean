import Mathlib.Algebra.GroupWithZero.Nat
import QCircuit.Proofs.Amplitude.Application
import QCircuit.Proofs.Ensemble.Refinement
import QCircuit.Proofs.Keyed

/-!
The shape of an ensemble and of its branches.

A branch always has as many amplitudes and classical bits as it started with. A classical bit is set
only by a measurement, which notes where the bit comes from, so a bit of unknown origin reads 0.
A gate acts on the branches of an ensemble as on a plain list; with the bookkeeping of the ids this
is all that holds between any two gates. A branch has an amplitude for every basis state as long as
their number is a 64-bit word.
-/

namespace QCircuit

/-! ### Operands -/

namespace Gate

lemma checkFrom_ok {g : Gate} {n : Nat} {earlier qs : List Nat} :
    g.checkFrom n earlier qs = .ok () ↔
      (∀ q ∈ qs, q < n) ∧ qs.Nodup ∧ ∀ q ∈ qs, q ∉ earlier := by
  induction qs generalizing earlier with
  | nil => simp [checkFrom]
  | cons q qs ih =>
    rw [checkFrom]
    split
    · next hq => simpa using fun hlt => absurd hlt (Nat.not_lt.mpr hq)
    · next hq =>
      split
      · next hmem => simpa using fun _ _ _ _ hc => absurd hmem hc
      · next hmem =>
        rw [ih]
        simp only [List.mem_cons, forall_eq_or_imp, List.nodup_cons, not_or]
        constructor
        · rintro ⟨hlt, hnd, hne⟩
          exact ⟨⟨Nat.lt_of_not_le hq, hlt⟩, ⟨fun hc => (hne q hc).1 rfl, hnd⟩, hmem,
            fun x hx => (hne x hx).2⟩
        · rintro ⟨⟨-, hlt⟩, ⟨hq, hnd⟩, -, hne⟩
          exact ⟨hlt, hnd, fun x hx => ⟨fun he => hq (he ▸ hx), hne x hx⟩⟩

/-- **The operands that are accepted**: in range, none twice. -/
theorem targets_ok {g : Gate} {n : Nat} {targets : List Nat} :
    g.targets n = .ok targets ↔
      targets = g.qubits ∧ (∀ q ∈ g.qubits, q < n) ∧ g.qubits.Nodup := by
  have hcheck : g.checkFrom n [] g.qubits = .ok () ↔ _ := checkFrom_ok
  unfold Gate.targets
  cases h : g.checkFrom n [] g.qubits with
  | error err =>
    simp only [h, reduceCtorEq, false_iff] at hcheck
    simp only [Except.map, reduceCtorEq, false_iff]
    exact fun hc => hcheck ⟨hc.2.1, hc.2.2, by simp⟩
  | ok u =>
    simp only [h, true_iff] at hcheck
    simp only [Except.map, Except.ok.injEq]
    exact ⟨fun he => ⟨he.symm, hcheck.1, hcheck.2.1⟩, fun he => he.1.symm⟩

/-- What a gate that is accepted does: a measurement in range, or a unitary. -/
lemma action_cases {g : Gate} {n m : Nat} {act : Branch → List Branch}
    (hact : g.action n m = .ok act) :
    (∃ q c, q < n ∧ c < m ∧ act = fun b => b.measure q c) ∨
      ∃ targets u, act = fun b => [b.apply targets u] := by
  unfold Gate.action at hact
  split at hact
  · cases ht : g.targets n with
    | error err => simp [ht, bind, Except.bind] at hact
    | ok targets =>
      obtain ⟨rfl, hlt, -⟩ := targets_ok.mp ht
      cases hqs : g.qubits with
      | nil => simp [ht, hqs, bind, Except.bind] at hact
      | cons q qs =>
        simp only [ht, hqs, bind, Except.bind] at hact
        split at hact
        · next hc => exact .inl ⟨q, _, hlt q (by simp [hqs]), hc, (Except.ok.inj hact).symm⟩
        · simp at hact
  · cases hu : g.matrix with
    | error err => simp [hu, bind, Except.bind] at hact
    | ok u =>
      cases ht : g.targets n with
      | error err => simp [hu, ht, bind, Except.bind] at hact
      | ok targets =>
        simp only [hu, ht, bind, Except.bind, pure, Except.pure, Except.ok.injEq] at hact
        exact .inr ⟨targets, u, hact.symm⟩

end Gate

/-! ### Branches -/

/-- There is an amplitude for every basis state below 64 qubits only. -/
lemma stateSize_eq_iff {n : Nat} : stateSize n = 2 ^ n ↔ n < 64 := by
  rw [stateSize, Nat.one_shiftLeft, Nat.pow_right_inj (by decide)]
  omega

namespace Branch

/-- A branch of `size` amplitudes on `n` qubits and `m` classical bits: a bit that was not measured is
0, and what is noted of the others is a classical bit with the qubit that it was measured from. -/
structure WellFormed (size n m : Nat) (b : Branch) : Prop where
  amplitudes : b.amplitudes.size = size
  clbits : b.clbits.length = m
  unmeasured : ∀ c < m, b.sources.lookup c = none → b.clbits[c]? = some false
  sources : ∀ p ∈ b.sources, p.1 < m ∧ p.2 < n

lemma wellFormed_initial (n m : Nat) (record : Bool) :
    (initial n m record).WellFormed (stateSize n) n m where
  amplitudes := by simp [initial]
  clbits := by simp [initial]
  unmeasured := fun c hc _ => by simp [initial, hc]
  sources := by simp [initial]

section Step

variable {size n m : Nat} {b : Branch} (h : b.WellFormed size n m)
include h

lemma WellFormed.apply (targets : List Nat) (u : Matrix Complex) :
    (b.apply targets u).WellFormed size n m :=
  { h with amplitudes := by rw [Branch.apply, applyMatrix_size, h.amplitudes] }

lemma WellFormed.child {q c : Nat} (hq : q < n) (hc : c < m) (outcome : Bool) (p : Float) :
    (b.child q c outcome p).WellFormed size n m where
  amplitudes := by simp [Branch.child, h.amplitudes]
  clbits := by simp [Branch.child, h.clbits]
  unmeasured := by
    intro k hk hnone
    simp only [Branch.child, Keyed.lookup_insert] at hnone ⊢
    split at hnone
    · simp at hnone
    · next hne => rw [List.getElem?_set_ne (Ne.symm hne), h.unmeasured k hk hnone]
  sources := by
    intro p hp
    rcases Keyed.mem_insert hp with rfl | hp
    · exact ⟨hc, hq⟩
    · exact h.sources p hp

lemma WellFormed.measure {q c : Nat} (hq : q < n) (hc : c < m) :
    ∀ b' ∈ b.measure q c, b'.WellFormed size n m := by
  intro b' hb'
  obtain ⟨outcome, p, rfl⟩ := exists_child_of_mem_measure hb'
  exact h.child hq hc outcome p

/-- Whatever a gate that is accepted makes of a branch. -/
lemma WellFormed.action {g : Gate} {act : Branch → List Branch} (hact : g.action n m = .ok act) :
    ∀ b' ∈ act b, b'.WellFormed size n m := by
  rcases Gate.action_cases hact with ⟨q, c, hq, hc, rfl⟩ | ⟨targets, u, rfl⟩
  · exact h.measure hq hc
  · intro b' hb'
    obtain rfl := List.mem_singleton.mp hb'
    exact h.apply targets u

end Step
end Branch

/-- What every branch has, and a gate that is accepted hands on, every branch has after a gate. -/
lemma plainStep_forall {n m : Nat} {P : Branch → Prop} {g : Gate} {branches : List Branch}
    (hact : ∀ act, g.action n m = .ok act → ∀ b, P b → ∀ b' ∈ act b, P b')
    (h : ∀ b ∈ branches, P b) : ∀ b ∈ (plainStep n m branches g).1, P b := by
  unfold plainStep
  cases hg : g.action n m with
  | error err => exact h
  | ok act =>
    intro b' hb'
    obtain ⟨b, hb, hb'⟩ := List.mem_flatMap.mp hb'
    have hall : ∀ x ∈ act b, P x := hact act hg b (h b hb)
    split at hb'
    · exact hall b' hb'
    · split at hb'
      · exact hall b' hb'
      · exact List.mem_singleton.mp hb' ▸ h b hb

/-! ### Ensembles -/

namespace Ensemble

/-- What holds between any two gates: the ids and what is remembered of the conditions are coherent,
and the live branches have the size of the ensemble. -/
structure WellFormed (n m : Nat) (e : Ensemble) : Prop extends Coherent e where
  qubits : e.qubits = n
  clbits : e.clbits = m
  branches : ∀ b ∈ e.branches, b.WellFormed (stateSize n) n m

lemma wellFormed_initial (n m : Nat) (record : Bool) : (initial n m record).WellFormed n m where
  toCoherent := coherent_initial n m record
  qubits := rfl
  clbits := rfl
  branches := by
    intro b hb
    obtain rfl : b = .initial n m record := List.mem_singleton.mp hb
    exact Branch.wellFormed_initial n m record

lemma WellFormed.applyGate {n m : Nat} {e : Ensemble} (h : e.WellFormed n m) (g : Gate) :
    (e.applyGate g).1.WellFormed n m where
  toCoherent := h.toCoherent.applyGate g
  qubits := (applyGate_size e g).1.trans h.qubits
  clbits := (applyGate_size e g).2.trans h.clbits
  branches := by
    have hplain := congrArg Prod.fst (h.toCoherent.applyGate_plain g)
    dsimp only at hplain
    rw [hplain, h.qubits, h.clbits]
    exact plainStep_forall (fun act hact b hb => hb.action hact) h.branches

lemma WellFormed.feed {n m : Nat} {e : Ensemble} (h : e.WellFormed n m) (gs : List Gate) :
    (QCircuit.feed Ensemble.applyGate e gs).1.WellFormed n m := by
  induction gs generalizing e with
  | nil => exact h
  | cons g gs ih => exact ih (h.applyGate g)

/-- What an ensemble on `n` qubits and `m` classical bits is meant to be: no id is live twice, an id
has a branch if and only if it is live, every live branch has `2 ^ n` amplitudes and `m` classical bits
whose origins are noted, and what is remembered of a condition are the live ids that satisfy it, with
the condition noted at each bit it reads. -/
structure Represents (n m : Nat) (e : Ensemble) : Prop where
  nodup : e.live.Nodup
  stored : ∀ id, (e.branch? id).isSome ↔ id ∈ e.live
  branches : ∀ id ∈ e.live, ∃ b, e.branch? id = some b ∧ b.WellFormed (2 ^ n) n m
  cached : ∀ c ids, (c, ids) ∈ e.cache →
    (∀ id, id ∈ ids ↔ id ∈ e.live ∧ (e.branch? id).any (c.holds ·.clbits)) ∧
      ∀ bit ∈ c.clbits, (bit, c) ∈ e.dependents

lemma WellFormed.represents {n m : Nat} {e : Ensemble} (h : e.WellFormed n m) (hn : n < 64) :
    e.Represents n m where
  nodup := h.nodup
  stored := fun id => by rw [Option.isSome_iff_exists, h.stored]
  branches := fun id hid => by
    obtain ⟨b, hb⟩ := (h.stored id).mp hid
    have hbranch := h.branches b (List.mem_filterMap.mpr ⟨id, hid, hb⟩)
    rw [stateSize_eq_iff.mpr hn] at hbranch
    exact ⟨b, hb, hbranch⟩
  cached := fun _ _ hc => ⟨h.cached _ hc, h.listed _ hc⟩

/-- **An ensemble is what it is meant to be below 64 qubits.** There it is after whatever gates a new
one is fed with, accepted or refused. From 64 qubits on not even a new one is: its branch has fewer
amplitudes. -/
theorem feed_represents_iff (n m : Nat) (record : Bool) :
    (∀ gs, (QCircuit.feed applyGate (initial n m record) gs).1.Represents n m) ↔ n < 64 := by
  refine ⟨fun h => ?_, fun hn gs => ((wellFormed_initial n m record).feed gs).represents hn⟩
  obtain ⟨b, hb, hbranch⟩ := (h []).branches 0 List.mem_cons_self
  obtain rfl : Branch.initial n m record = b := Option.some.inj hb
  exact stateSize_eq_iff.mp
    ((Branch.wellFormed_initial n m record).amplitudes.symm.trans hbranch.amplitudes)

/-- On 64 qubits the branch of a new one has a single amplitude. -/
theorem initial_sixtyFour_single : (initial 64 0 false).live = [0] ∧
    (∃ b, (initial 64 0 false).branch? 0 = some b ∧ b.amplitudes.size = 1) ∧
      ¬ (initial 64 0 false).Represents 64 0 := by
  have hsize : (Branch.initial 64 0 false).amplitudes.size = 1 := by decide
  refine ⟨rfl, ⟨_, rfl, hsize⟩, fun h => ?_⟩
  obtain ⟨b, hb, hbranch⟩ := h.branches 0 List.mem_cons_self
  obtain rfl : Branch.initial 64 0 false = b := Option.some.inj hb
  exact absurd (hsize.symm.trans hbranch.amplitudes) (by decide)

end Ensemble
end QCircuit
