import QCircuit.Proofs.Number.Exact
import QCircuit.Proofs.Tally.Shares

/-!
Whole shots of a distribution.

The whole shots of a key are the whole part of a rounded product. It is at least the whole part of
the exact product, and too large by so little that all keys together do not get a shot too many. So
probabilities that make one leave less than a shot for each key.
-/

namespace QCircuit

open Binary64

section Products

variable {p : Float} {shots : Nat}

/-- **The whole shots of a probability**, by the exact product. -/
theorem Quota.base_bounds (hfinite : p.isFinite) (hlow : 0 ≤ value p) (hhigh : value p ≤ 1)
    (hshots : shots < 4294967296) :
    value p * shots < (Quota.ofProbability shots p).base + 1 ∧
      (Quota.ofProbability shots p).base ≤ value p * shots * (1 + 1 / lead) := by
  have hw : Stands shots.toFloat shots := stands_toFloat (by simp only [lead]; omega)
  have hshots : (shots : ℚ) ≤ 4294967295 := by exact_mod_cast Nat.le_pred_of_lt hshots
  have hexact : value p * shots ≤ shots := mul_le_of_le_one_left hw.nonneg hhigh
  obtain ⟨u, hu, hround⟩ := (stands_value hfinite hlow).mul hw (by linarith)
  have hult : u < 4294967296 := by
    by_contra hge
    have hclose : u ≤ 4294967295 * (1 + 1 / lead) :=
      calc u ≤ value p * shots * (1 + 1 / lead) := hround.close (by linarith)
        _ ≤ 4294967295 * (1 + 1 / lead) := by gcongr; exact hexact.trans hshots
    norm_num [lead] at hclose
    linarith
  obtain ⟨hbase, hbase'⟩ : ((Quota.ofProbability shots p).base : ℚ) ≤ u ∧
      u < (Quota.ofProbability shots p).base + 1 := by
    have hdef : (Quota.ofProbability shots p).base =
        if 0.0 < p * shots.toFloat then (p * shots.toFloat).toUInt32.toNat else 0 := rfl
    rw [hdef]
    split
    · exact hu.toUInt32 hult
    · next hnot =>
      have hzero : u = 0 := le_antisymm (not_lt.mp (mt hu.pos_iff.mpr hnot)) hu.nonneg
      rw [hzero]
      norm_num
  constructor
  · -- the whole part of the exact product is reached by the rounded one
    have hfloor : ((⌊value p * shots⌋₊ : ℕ) : ℚ) ≤ u :=
      hround.whole _ (Nat.floor_le (by positivity))
    have hle : ⌊value p * shots⌋₊ ≤ (Quota.ofProbability shots p).base := by
      have hlt : (⌊value p * shots⌋₊ : ℚ) < (Quota.ofProbability shots p).base + 1 :=
        hfloor.trans_lt hbase'
      exact Nat.lt_succ_iff.mp (by exact_mod_cast hlt)
    calc value p * shots < ⌊value p * shots⌋₊ + 1 := Nat.lt_floor_add_one _
      _ ≤ (Quota.ofProbability shots p).base + 1 := by gcongr
  · rcases Nat.eq_zero_or_pos (Quota.ofProbability shots p).base with hzero | hpos
    · rw [hzero, Nat.cast_zero]
      have : (0 : ℚ) ≤ 1 + 1 / lead := by norm_num [lead]
      positivity
    · have hone : (1 : ℚ) ≤ (Quota.ofProbability shots p).base := by exact_mod_cast hpos
      exact hbase.trans (hround.close (hone.trans hbase))

end Products

/-- The exact sum of probabilities. -/
def exactSum {κ : Type} : Keyed κ Float → ℚ
  | [] => 0
  | (_, p) :: rest => value p + exactSum rest

namespace Tally

/-- The probabilities are not negative and make exactly one. -/
structure IsDistribution (t : Tally) : Prop where
  finite : ∀ x ∈ t.probabilities, x.2.isFinite
  nonneg : ∀ x ∈ t.probabilities, 0 ≤ value x.2
  sum : exactSum t.probabilities = 1

end Tally

section Sums

variable {κ : Type} {probabilities : Keyed κ Float}

lemma exactSum_nonneg (h : ∀ x ∈ probabilities, 0 ≤ value x.2) : 0 ≤ exactSum probabilities := by
  induction probabilities with
  | nil => exact le_rfl
  | cons x rest ih =>
    obtain ⟨hx, hrest⟩ := List.forall_mem_cons.mp h
    exact add_nonneg hx (ih hrest)

lemma value_le_exactSum (h : ∀ x ∈ probabilities, 0 ≤ value x.2) :
    ∀ x ∈ probabilities, value x.2 ≤ exactSum probabilities := by
  induction probabilities with
  | nil => simp
  | cons x rest ih =>
    obtain ⟨hx, hrest⟩ := List.forall_mem_cons.mp h
    refine List.forall_mem_cons.mpr ⟨?_, fun y hy => ?_⟩
    · exact le_add_of_nonneg_right (exactSum_nonneg hrest)
    · exact (ih hrest y hy).trans (le_add_of_nonneg_left hx)

lemma assigned_bounds {probabilities : Keyed String Float} {shots : Nat}
    (hshots : shots < 4294967296)
    (h : ∀ x ∈ probabilities, x.2.isFinite ∧ 0 ≤ value x.2 ∧ value x.2 ≤ 1) :
    exactSum probabilities * shots ≤
        assigned (Tally.quotas ⟨probabilities, shots⟩) + probabilities.length ∧
      assigned (Tally.quotas ⟨probabilities, shots⟩) ≤
        exactSum probabilities * shots * (1 + 1 / lead) := by
  induction probabilities with
  | nil => simp [exactSum, Tally.quotas, assigned]
  | cons x rest ih =>
    obtain ⟨⟨hfinite, hlow, hhigh⟩, hrest⟩ := List.forall_mem_cons.mp h
    obtain ⟨hlt, hle⟩ := Quota.base_bounds hfinite hlow hhigh hshots
    obtain ⟨ihlow, ihhigh⟩ := ih hrest
    rw [Tally.quotas] at ihlow ihhigh ⊢
    simp only [List.map_cons, exactSum, assigned, List.length_cons]
    push_cast
    constructor <;> linarith

end Sums

/-- **Probabilities that make one leave over at most a shot for each key.** -/
theorem Tally.IsDistribution.leftover {t : Tally} (h : t.IsDistribution)
    (hshots : t.shots < 4294967296) : assigned t.quotas ≤ t.shots ∧
      t.shots - assigned t.quotas ≤ t.probabilities.length := by
  obtain ⟨hlow, hhigh⟩ := assigned_bounds hshots fun x hx =>
    ⟨h.finite x hx, h.nonneg x hx, (value_le_exactSum h.nonneg x hx).trans_eq h.sum⟩
  rw [h.sum, one_mul] at hlow hhigh
  have hwhole : (assigned t.quotas : ℚ) < t.shots + 1 := by
    have hshots : (t.shots : ℚ) ≤ 4294967295 := by exact_mod_cast Nat.le_pred_of_lt hshots
    calc (assigned t.quotas : ℚ) ≤ t.shots * (1 + 1 / lead) := hhigh
      _ = t.shots + t.shots * (1 / lead) := by ring
      _ ≤ t.shots + 4294967295 * (1 / lead) := by gcongr
      _ < t.shots + 1 := by norm_num [lead]
  have hle : t.shots ≤ assigned t.quotas + t.probabilities.length := by exact_mod_cast hlow
  have hlt : assigned t.quotas < t.shots + 1 := by exact_mod_cast hwhole
  exact ⟨by omega, by omega⟩

end QCircuit
