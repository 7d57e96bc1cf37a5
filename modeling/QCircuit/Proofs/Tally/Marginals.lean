import Mathlib.Algebra.GroupWithZero.Nat
import Mathlib.Data.Finset.Card
import QCircuit.Proofs.Keyed
import QCircuit.Tally

/-!
Packed probabilities as marginals.

A key stands for the basis states that agree on the retained qubits, and its value is what these
states have, added up in the order of their indices. What all states together lack of one is added
to the greatest key.
-/

namespace QCircuit

/-! ### Keys -/

/-- The qubits whose bits a key spells, in order. -/
def retainedQubits (n : Nat) (retained : List Nat) : List Nat :=
  (List.range n).filter fun q => retained.isEmpty || retained.contains q

lemma toList_basisKey (index n : Nat) (retained : List Nat) :
    (basisKey index n retained).toList =
      (retainedQubits n retained).map fun q => if index.testBit (n - 1 - q) then '1' else '0' := by
  simp [basisKey, retainedQubits]

lemma mem_retainedQubits {n : Nat} {retained : List Nat} {q : Nat} :
    q ∈ retainedQubits n retained ↔ q < n ∧ (retained = [] ∨ q ∈ retained) := by
  simp [retainedQubits]

/-- **Keys are equal when the retained bits are.** -/
theorem basisKey_eq_iff {i j n : Nat} {retained : List Nat} :
    basisKey i n retained = basisKey j n retained ↔
      ∀ q < n, retained = [] ∨ q ∈ retained → i.testBit (n - 1 - q) = j.testBit (n - 1 - q) := by
  rw [← String.toList_inj, toList_basisKey, toList_basisKey, List.map_inj_left]
  simp only [mem_retainedQubits, and_imp]
  refine forall₃_congr fun q hq hmem => ?_
  cases i.testBit (n - 1 - q) <;> cases j.testBit (n - 1 - q) <;> simp

lemma length_basisKey (index n : Nat) (retained : List Nat) :
    (basisKey index n retained).length =
      if retained = [] then n else (retained.toFinset.filter (· < n)).card := by
  rw [← String.length_toList, toList_basisKey, List.length_map]
  split
  · next hnil => simp [retainedQubits, hnil]
  · next hne =>
    have hnodup : (retainedQubits n retained).Nodup := List.nodup_range.filter _
    rw [← List.toFinset_card_of_nodup hnodup]
    congr 1
    ext q
    simp [mem_retainedQubits, hne, and_comm]

/-! ### Sums -/

/-- The probabilities that are not taken for nothing, each with the index of its basis state. -/
def keptStates (probabilities : List Float) : List (Float × Nat) :=
  probabilities.zipIdx.filter fun x => epsilon < x.1.abs

/-- Probabilities added up from the first on. -/
def mass (states : List (Float × Nat)) : Float := states.foldl (fun s x => s + x.1) 0.0

/-- The states with a key. -/
def statesOf (n : Nat) (retained : List Nat) (states : List (Float × Nat)) (k : String) :
    List (Float × Nat) :=
  states.filter (basisKey ·.2 n retained = k)

lemma mem_keptStates {probabilities : List Float} {p : Float} {i : Nat} :
    (p, i) ∈ keptStates probabilities ↔ probabilities[i]? = some p ∧ epsilon < p.abs := by
  simp [keptStates, List.mem_zipIdx_iff_getElem?]

/-- The table of sums, before anything is added for what is missing. -/
def sums (n : Nat) (retained : List Nat) (states : List (Float × Nat)) : Keyed String Float :=
  states.foldl (fun t x => t.alter (basisKey x.2 n retained) fun p => p.getD 0.0 + x.1) []

lemma foldl_packStep (n : Nat) (retained : List Nat) (xs : List (Float × Nat))
    (t : Keyed String Float) (s : Float) :
    xs.foldl (packStep n retained) (t, s) =
      ((xs.filter fun x => epsilon < x.1.abs).foldl
          (fun t x => t.alter (basisKey x.2 n retained) fun p => p.getD 0.0 + x.1) t,
        (xs.filter fun x => epsilon < x.1.abs).foldl (fun s x => s + x.1) s) := by
  induction xs generalizing t s with
  | nil => rfl
  | cons x xs ih =>
    by_cases hx : epsilon < x.1.abs
    · rw [List.foldl_cons, packStep, if_pos hx, ih, List.filter_cons_of_pos (by simpa using hx)]
      rfl
    · rw [List.foldl_cons, packStep, if_neg hx, ih, List.filter_cons_of_neg (by simpa using hx)]

lemma pack_eq {n : Nat} {probabilities : List Float} (hlen : probabilities.length = 2 ^ n)
    (retained : List Nat) :
    pack probabilities retained =
      let states := keptStates probabilities
      let missing := 1.0 - mass states
      if epsilon < missing.abs then updateLast (· + missing) (sums n retained states)
      else sums n retained states := by
  have hn : probabilities.length.log2 = n := by rw [hlen, Nat.log2_two_pow]
  simp only [pack, hn, foldl_packStep]
  rfl

lemma foldl_some (s : Float) (xs : List (Float × Nat)) :
    xs.foldl (fun (o : Option Float) x => some (o.getD 0.0 + x.1)) (some s) =
      some (xs.foldl (fun s x => s + x.1) s) := by
  induction xs generalizing s with
  | nil => rfl
  | cons x xs ih => exact ih (s + x.1)

lemma sums_eq (n : Nat) (retained : List Nat) (states : List (Float × Nat)) :
    (sums n retained states).Ascending ∧ ∀ k, (sums n retained states).lookup k =
      (statesOf n retained states k).foldl (fun p x => some (p.getD 0.0 + x.1)) none := by
  have hempty : Keyed.Ascending ([] : Keyed String Float) := .nil
  exact hempty.foldl_alter (fun x : Float × Nat => basisKey x.2 n retained)
    (fun x p => p.getD 0.0 + x.1) states

/-- **The sum of a key.** -/
theorem lookup_sums (n : Nat) (retained : List Nat) (states : List (Float × Nat)) (k : String) :
    (sums n retained states).lookup k =
      if statesOf n retained states k = [] then none
      else some (mass (statesOf n retained states k)) := by
  rw [(sums_eq n retained states).2 k]
  cases statesOf n retained states k with
  | nil => rfl
  | cons x xs => exact foldl_some (0.0 + x.1) xs

/-! ### What is missing -/

section Last

variable {κ α : Type} {f : α → α} {t : Keyed κ α}

lemma keys_updateLast (f : α → α) (t : Keyed κ α) : (updateLast f t).keys = t.keys := by
  induction t with
  | nil => rfl
  | cons p t ih =>
    cases t with
    | nil => rfl
    | cons q t => exact congrArg (p.1 :: ·) ih

variable [LT κ] [LE κ] [Std.IsLinearOrder κ] [Std.LawfulOrderLT κ] [DecidableEq κ]
  [DecidableLE κ]

/-- The last key is the greatest: no other value changes. -/
lemma lookup_updateLast (ht : t.Ascending) (k : κ) :
    (updateLast f t).lookup k =
      if ∀ j ∈ t.keys, j ≤ k then (t.lookup k).map f else t.lookup k := by
  induction t with
  | nil => exact (ite_self _).symm
  | cons p t ih =>
    obtain ⟨i, x⟩ := p
    obtain ⟨hp, ht⟩ := List.pairwise_cons.mp ht
    cases t with
    | nil =>
      rw [updateLast, Keyed.lookup_cons_ite, Keyed.lookup_cons_ite]
      by_cases hk : k = i
      · have hall : ∀ j ∈ Keyed.keys [(i, x)], j ≤ k := by simp [Keyed.keys, hk, Std.le_refl]
        rw [if_pos hk, if_pos hk, if_pos hall, Option.map_some]
      · rw [if_neg hk, if_neg hk]
        exact (ite_self _).symm
    | cons q t =>
      have hiq : i < q.1 := hp q List.mem_cons_self
      have hq : q.1 ∈ Keyed.keys (q :: t) := List.mem_cons_self
      rw [updateLast, Keyed.lookup_cons_ite, Keyed.lookup_cons_ite, ih ht]
      have hiff : (∀ j ∈ Keyed.keys ((i, x) :: q :: t), j ≤ k) ↔
          ∀ j ∈ Keyed.keys (q :: t), j ≤ k := by
        refine ⟨fun h j hj => h j (List.mem_cons_of_mem _ hj), fun h j hj => ?_⟩
        rcases List.mem_cons.mp hj with rfl | hj
        · exact Std.le_trans (Std.le_of_lt hiq) (h q.1 hq)
        · exact h j hj
      by_cases hk : k = i
      · have hnot : ¬ ∀ j ∈ Keyed.keys ((i, x) :: q :: t), j ≤ k := fun h =>
          Std.not_le.mpr hiq (hk ▸ hiff.mp h q.1 hq)
        rw [if_pos hk, if_neg hnot, if_pos hk]
      · simp only [if_neg hk, hiff]

end Last

/-- What packing answers: the marginal of the retained qubits, with what is missing from one at the
greatest key. -/
structure Marginal (n : Nat) (probabilities : List Float) (retained : List Nat)
    (packed : Keyed String Float) : Prop where
  ascending : packed.Ascending
  /-- The keys are those of the states that are not taken for nothing. -/
  mem_keys (k : String) : k ∈ packed.keys ↔
    ∃ i p, probabilities[i]? = some p ∧ epsilon < p.abs ∧ k = basisKey i n retained
  length (k : String) : k ∈ packed.keys →
    k.length = if retained = [] then n else (retained.toFinset.filter (· < n)).card
  /-- Two states have one key when they agree on all retained qubits. -/
  shared (i j : Nat) : basisKey i n retained = basisKey j n retained ↔
    ∀ q < n, retained = [] ∨ q ∈ retained → i.testBit (n - 1 - q) = j.testBit (n - 1 - q)
  value (k : String) : k ∈ packed.keys →
    let missing := 1.0 - mass (keptStates probabilities)
    let sum := mass (statesOf n retained (keptStates probabilities) k)
    packed.lookup k = some
      (if epsilon < missing.abs ∧ ∀ j ∈ packed.keys, j ≤ k then sum + missing else sum)

section Packing

variable {n : Nat} {probabilities : List Float} {retained : List Nat} {k : String}

lemma mem_keys_sums {states : List (Float × Nat)} :
    k ∈ (sums n retained states).keys ↔ ∃ x ∈ states, basisKey x.2 n retained = k := by
  rw [← not_iff_not, ← Keyed.lookup_eq_none_iff, lookup_sums, ite_eq_left_iff]
  simp [imp_false, statesOf, List.filter_eq_nil_iff]

lemma lookup_sums_of_mem {states : List (Float × Nat)} (hk : k ∈ (sums n retained states).keys) :
    (sums n retained states).lookup k = some (mass (statesOf n retained states k)) := by
  have hne : (sums n retained states).lookup k ≠ none := fun hc =>
    Keyed.lookup_eq_none_iff.mp hc hk
  rw [lookup_sums] at hne ⊢
  exact if_neg fun hc => hne (if_pos hc)

/-- **Packing is marginalization.** -/
theorem pack_marginal (hlen : probabilities.length = 2 ^ n) (retained : List Nat) :
    Marginal n probabilities retained (pack probabilities retained) := by
  have hasc := (sums_eq n retained (keptStates probabilities)).1
  have hkeys : (pack probabilities retained).keys =
      (sums n retained (keptStates probabilities)).keys := by
    rw [pack_eq hlen]
    exact (apply_ite Keyed.keys _ _ _).trans (by rw [keys_updateLast, ite_self])
  have hmem (k : String) : k ∈ (pack probabilities retained).keys ↔
      ∃ i p, probabilities[i]? = some p ∧ epsilon < p.abs ∧ k = basisKey i n retained := by
    rw [hkeys, mem_keys_sums]
    constructor
    · rintro ⟨⟨p, i⟩, hx, rfl⟩
      obtain ⟨hi, hp⟩ := mem_keptStates.mp hx
      exact ⟨i, p, hi, hp, rfl⟩
    · rintro ⟨i, p, hi, hp, rfl⟩
      exact ⟨(p, i), mem_keptStates.mpr ⟨hi, hp⟩, rfl⟩
  refine ⟨hasc.of_keys_eq hkeys, hmem, fun k hk => ?_, fun i j => basisKey_eq_iff,
    fun k hk => ?_⟩
  · obtain ⟨i, p, -, -, rfl⟩ := (hmem k).mp hk
    exact length_basisKey i n retained
  · have hsum := lookup_sums_of_mem (hkeys ▸ hk)
    rw [hkeys, pack_eq hlen]
    intro missing sum
    by_cases hmissing : epsilon < missing.abs
    · have hlast := lookup_updateLast hasc k (f := (· + missing))
      rw [hsum] at hlast
      simp only [hmissing, true_and]
      rw [if_pos hmissing, hlast]
      split <;> rfl
    · simp only [hmissing, false_and]
      rw [if_neg hmissing, hsum]
      rfl

/-- Two qubits of which the first is retained; the eighth that is missing goes to its ones. -/
theorem eighthMissing_marginal :
    [0.25, 0.25, 0.375, 0.0].length = 2 ^ 2 ∧
      Marginal 2 [0.25, 0.25, 0.375, 0.0] [0] [("0", 0.5), ("1", 0.5)] := by
  have hpack : pack [0.25, 0.25, 0.375, 0.0] [0] = [("0", 0.5), ("1", 0.5)] := by
    decide +kernel
  have hmarginal : Marginal 2 [0.25, 0.25, 0.375, 0.0] [0] (pack [0.25, 0.25, 0.375, 0.0] [0]) :=
    pack_marginal rfl [0]
  exact ⟨rfl, hpack ▸ hmarginal⟩

end Packing

end QCircuit
