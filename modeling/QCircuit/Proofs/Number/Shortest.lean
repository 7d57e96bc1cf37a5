import Mathlib.Tactic
import QCircuit.Decimal
import QCircuit.Proofs.Number.Rounding

/-!
The shortest decimal of a double reads back as the double.

Nineteen steps below the coarsest grid that is tried, a step of the grid is shorter than half the
interval of the double, so the grid has a point in it at the latest there. Since the point lies in
the interval, the nearest double to it is the one that was written.
-/

namespace QCircuit

/-! ### Powers of ten between powers of two -/

/-- `30103 / 100000` is close to the logarithm of two, and the exponents of doubles are small. -/
lemma ten_zpow_le_two_zpow {s n : ℤ} (hn : n ≤ 1100) (hn' : -1100 ≤ n)
    (h : 100000 * s ≤ 30103 * n) : (10 : ℚ) ^ s ≤ 2 ^ (n + 1) := by
  rcases le_total 0 s with hs | hs
  · refine (pow_le_pow_iff_left₀ (by positivity) (by positivity) (n := 31) (by decide)).mp ?_
    calc ((10 : ℚ) ^ s) ^ 31 = (10 ^ 31) ^ s := by
          rw [← zpow_natCast, ← zpow_natCast, ← zpow_mul, ← zpow_mul, mul_comm]
      _ ≤ (2 ^ 103) ^ s := zpow_le_zpow_left₀ hs (by norm_num) (by norm_num)
      _ = 2 ^ (103 * s) := by rw [← zpow_natCast, ← zpow_mul]; norm_num
      _ ≤ 2 ^ ((n + 1) * 31) := zpow_le_zpow_right₀ one_le_two (by omega)
      _ = (2 ^ (n + 1)) ^ 31 := by rw [zpow_mul]; norm_cast
  · refine (pow_le_pow_iff_left₀ (by positivity) (by positivity) (n := 28) (by decide)).mp ?_
    calc ((10 : ℚ) ^ s) ^ 28 = (10 ^ 28) ^ s := by
          rw [← zpow_natCast, ← zpow_natCast, ← zpow_mul, ← zpow_mul, mul_comm]
      _ ≤ (2 ^ 93) ^ s := by
        rw [← neg_neg s, zpow_neg, zpow_neg (2 ^ 93 : ℚ)]
        exact inv_anti₀ (by positivity) (zpow_le_zpow_left₀ (by omega) (by norm_num) (by norm_num))
      _ = 2 ^ (93 * s) := by rw [← zpow_natCast, ← zpow_mul]; norm_num
      _ ≤ 2 ^ ((n + 1) * 28) := zpow_le_zpow_right₀ one_le_two (by omega)
      _ = (2 ^ (n + 1)) ^ 28 := by rw [zpow_mul]; norm_cast

lemma two_zpow_le_ten_zpow {s n : ℤ} (hn : n ≤ 1100) (hn' : -1100 ≤ n)
    (h : 30103 * n ≤ 100000 * s) : (2 : ℚ) ^ (n - 1) ≤ 10 ^ s := by
  have := ten_zpow_le_two_zpow (s := -s) (n := -n) (by omega) (by omega) (by omega)
  rw [zpow_neg, show -n + 1 = -(n - 1) by omega, zpow_neg] at this
  exact (inv_le_inv₀ (by positivity) (by positivity)).mp this

namespace Decimal

open Binary64 (Canonical Near)

/-! ### Points of a grid -/

/-- The step of the grid over a quarter of the last place, as a ratio. -/
def stepNum (e k : ℤ) : ℕ := Nat.pow 10 k.toNat <<< (2 - e).toNat

def stepDen (e k : ℤ) : ℕ := Nat.pow 10 (-k).toNat <<< (e - 2).toNat

def lowQuarters (m : ℕ) (e : ℤ) : ℕ :=
  if m = Binary64.lead ∧ -1074 < e then 4 * m - 1 else 4 * m - 2

/-- Whether the `n`-th point of the grid lies in the interval. -/
def inside (m : ℕ) (e k : ℤ) (n : ℕ) : Bool :=
  if m % 2 = 0 then
    lowQuarters m e * stepDen e k ≤ n * stepNum e k &&
      n * stepNum e k ≤ (4 * m + 2) * stepDen e k
  else
    lowQuarters m e * stepDen e k < n * stepNum e k &&
      n * stepNum e k < (4 * m + 2) * stepDen e k

section grid

variable {tie : Tie} {m : ℕ} {e k : ℤ}

lemma onGrid_eq : onGrid tie m e k =
    [roundDiv tie (4 * m * stepDen e k) (stepNum e k), 4 * m * stepDen e k / stepNum e k,
      4 * m * stepDen e k / stepNum e k + 1].find? (inside m e k) := rfl

lemma stepDen_pos (e k : ℤ) : 0 < stepDen e k :=
  Binary64.shiftLeft_pos (Nat.pow_pos (by decide)) _

lemma stepNum_pos (e k : ℤ) : 0 < stepNum e k :=
  Binary64.shiftLeft_pos (Nat.pow_pos (by decide)) _

lemma stepNum_div_stepDen (e k : ℤ) :
    (stepNum e k : ℚ) / stepDen e k = 10 ^ k / 2 ^ (e - 2) := by
  rw [stepNum, stepDen, show 2 - e = -(e - 2) by omega, cast_shift_div, zpow_eq_toNat_div 10 k]
  push_cast [Nat.pow_eq]
  rfl

lemma cast_lowQuarters (hm : 0 < m) : (lowQuarters m e : ℚ) = Binary64.quarterLow m e := by
  unfold lowQuarters Binary64.quarterLow
  split_ifs
  · push_cast [Nat.cast_sub (show 1 ≤ 4 * m by omega)]
    rfl
  · push_cast [Nat.cast_sub (show 2 ≤ 4 * m by omega)]
    rfl

lemma quarters_le_point_iff (a n : ℕ) :
    (a : ℚ) * 2 ^ (e - 2) ≤ n * 10 ^ k ↔ a * stepDen e k ≤ n * stepNum e k := by
  have hu : (0 : ℚ) < 2 ^ (e - 2) := by positivity
  have hq : (0 : ℚ) < stepDen e k := by exact_mod_cast stepDen_pos e k
  rw [← le_div_iff₀ hu, mul_div_assoc, ← stepNum_div_stepDen, ← mul_div_assoc, le_div_iff₀ hq]
  norm_cast

lemma point_le_quarters_iff (a n : ℕ) :
    (n : ℚ) * 10 ^ k ≤ a * 2 ^ (e - 2) ↔ n * stepNum e k ≤ a * stepDen e k := by
  have hu : (0 : ℚ) < 2 ^ (e - 2) := by positivity
  have hq : (0 : ℚ) < stepDen e k := by exact_mod_cast stepDen_pos e k
  rw [← div_le_iff₀ hu, mul_div_assoc, ← stepNum_div_stepDen, ← mul_div_assoc, div_le_iff₀ hq]
  norm_cast

lemma near_of_onGrid (hm : 0 < m) {n : ℕ} (h : onGrid tie m e k = some n) :
    Near m e (n * 10 ^ k) := by
  have hinside := List.find?_some (onGrid_eq ▸ h)
  have hhigh : (4 * m + 2 : ℚ) = (4 * m + 2 : ℕ) := by push_cast; rfl
  have hle : lowQuarters m e * stepDen e k ≤ n * stepNum e k ∧
      n * stepNum e k ≤ (4 * m + 2) * stepDen e k := by
    unfold inside at hinside
    split_ifs at hinside
    · simpa using hinside
    · exact (by simpa using hinside : _ ∧ _).imp le_of_lt le_of_lt
  refine ⟨?_, ?_, fun hodd => ?_⟩
  · rw [← cast_lowQuarters hm, quarters_le_point_iff]
    exact hle.1
  · rw [hhigh, point_le_quarters_iff]
    exact hle.2
  · rw [inside, if_neg (by omega)] at hinside
    rw [← cast_lowQuarters hm, hhigh, ← not_le, ← not_le, quarters_le_point_iff,
      point_le_quarters_iff, not_le, not_le]
    simpa using hinside

/-- Where the step is less than half a unit of the last place, the first point above the double is
inside. -/
lemma onGrid_isSome (h : (10 : ℚ) ^ k < 2 ^ (e - 1)) : (onGrid tie m e k).isSome := by
  have hstep : stepNum e k < 2 * stepDen e k := by
    have hdouble : (2 : ℚ) ^ (e - 1) = (2 : ℕ) * 2 ^ (e - 2) := by
      rw [Nat.cast_ofNat, ← zpow_one_add₀ two_ne_zero]
      congr 1
      omega
    have := (quarters_le_point_iff (e := e) (k := k) 2 1).not.mp
      (not_le.mpr (by rw [← hdouble]; simpa using h))
    omega
  rw [onGrid_eq, List.find?_isSome]
  refine ⟨4 * m * stepDen e k / stepNum e k + 1, by simp, ?_⟩
  have hlow : lowQuarters m e * stepDen e k ≤ 4 * m * stepDen e k := by
    gcongr
    unfold lowQuarters
    split_ifs <;> omega
  have hbelow := Nat.div_mul_le_self (4 * m * stepDen e k) (stepNum e k)
  have habove := Nat.lt_mul_div_succ (4 * m * stepDen e k) (stepNum_pos e k)
  have hgt : lowQuarters m e * stepDen e k <
      (4 * m * stepDen e k / stepNum e k + 1) * stepNum e k := by
    rw [mul_comm _ (stepNum e k)]
    exact hlow.trans_lt habove
  have hlt : (4 * m * stepDen e k / stepNum e k + 1) * stepNum e k <
      (4 * m + 2) * stepDen e k := by
    rw [add_mul, add_mul, one_mul]
    omega
  unfold inside
  split_ifs <;> simp [hgt, hlt, hgt.le, hlt.le]

end grid

/-! ### The first grid with a point -/

/-- The exponent of the grid that is tried after `i` others. -/
def gridExp (m : ℕ) (e : ℤ) (i : ℕ) : ℤ := (m.log2 + e) * 30103 / 100000 + 2 - i

def gridPoint (tie : Tie) (m : ℕ) (e : ℤ) (i : ℕ) : Option Decimal :=
  (onGrid tie m e (gridExp m e i)).map fun n => ⟨n, gridExp m e i⟩

section shortest

variable {m : ℕ} {e : ℤ}

lemma shortest_eq (tie : Tie) (hm : m ≠ 0) :
    shortest tie m e = ((List.range 21).findSome? (gridPoint tie m e)).getD ⟨0, 0⟩ :=
  if_neg hm

lemma ten_zpow_gridExp_lt (hc : Canonical m e) (hm : 0 < m) :
    (10 : ℚ) ^ gridExp m e 19 < 2 ^ (e - 1) := by
  obtain ⟨hlt, hlow, hhigh, -⟩ := hc
  have hlog : m.log2 < 53 := (Nat.log2_lt hm.ne').mpr hlt
  calc (10 : ℚ) ^ gridExp m e 19
      = 10 ^ ((m.log2 + e) * 30103 / 100000) / 10 ^ (17 : ℤ) := by
        rw [← zpow_sub₀ (by norm_num), gridExp]
        congr 1
        omega
    _ ≤ 2 ^ (m.log2 + e + 1) / 10 ^ (17 : ℤ) := by
      gcongr
      exact ten_zpow_le_two_zpow (by omega) (by omega) (by omega)
    _ < 2 ^ (m.log2 + e + 1) / 2 ^ (56 : ℤ) := by
      gcongr
      norm_num
    _ = 2 ^ (m.log2 + e + 1 - 56) := (zpow_sub₀ two_ne_zero _ _).symm
    _ ≤ 2 ^ (e - 1) := zpow_le_zpow_right₀ one_le_two (by omega)

/-- The shortest decimal is a point of its grid inside the interval. -/
lemma shortest_spec (tie : Tie) (hc : Canonical m e) (hm : 0 < m) :
    ∃ i n, i < 20 ∧ shortest tie m e = ⟨n, gridExp m e i⟩ ∧
      onGrid tie m e (gridExp m e i) = some n := by
  have hsome : ((List.range 20).findSome? (gridPoint tie m e)).isSome := by
    rw [List.findSome?_isSome_iff]
    refine ⟨19, by simp, ?_⟩
    rw [gridPoint, Option.isSome_map]
    exact onGrid_isSome (ten_zpow_gridExp_lt hc hm)
  obtain ⟨d, hd⟩ := Option.isSome_iff_exists.mp hsome
  have hshortest : shortest tie m e = d := by
    rw [shortest_eq tie hm.ne', show List.range 21 = List.range 20 ++ [20] from List.range_succ,
      List.findSome?_append, hd]
    rfl
  obtain ⟨i, hi, hid⟩ := List.exists_of_findSome?_eq_some hd
  obtain ⟨n, hn, rfl⟩ := Option.map_eq_some_iff.mp hid
  exact ⟨i, n, List.mem_range.mp hi, hshortest, hn⟩

/-! ### Reading back -/

/-- The number that a decimal stands for. -/
def value (d : Decimal) : ℚ := d.digits * 10 ^ d.exp

lemma near_shortest (tie : Tie) (hc : Canonical m e) (hm : 0 < m) :
    Near m e (shortest tie m e).value := by
  obtain ⟨i, n, -, hshortest, hn⟩ := shortest_spec tie hc hm
  rw [hshortest]
  exact near_of_onGrid hm hn

/-- Seventeen digits and a little: the digits fit a word of 64 bits. -/
lemma digits_shortest_lt (tie : Tie) (hc : Canonical m e) :
    (shortest tie m e).digits < 18446744073709551616 := by
  rcases Nat.eq_zero_or_pos m with rfl | hm
  · rw [shortest, if_pos rfl]
    decide
  obtain ⟨i, n, hi, hshortest, hn⟩ := shortest_spec tie hc hm
  rw [hshortest]
  have hlog : m.log2 < 53 := (Nat.log2_lt hm.ne').mpr hc.lt
  have hlow := hc.low
  have hhigh := hc.high
  obtain ⟨N, hN⟩ : ∃ N : ℤ, N = m.log2 + e := ⟨_, rfl⟩
  have hvalue : (n : ℚ) * 10 ^ gridExp m e i ≤ 2 ^ (N + 1) := by
    have hbits : 4 * m + 2 ≤ 2 ^ (m.log2 + 3) := by
      have := Nat.lt_log2_self (n := m)
      rw [show m.log2 + 3 = m.log2 + 1 + 2 by omega, pow_add]
      omega
    calc (n : ℚ) * 10 ^ gridExp m e i ≤ (4 * m + 2) * 2 ^ (e - 2) := (near_of_onGrid hm hn).high
      _ ≤ 2 ^ ((m.log2 : ℤ) + 3) * 2 ^ (e - 2) := by
        gcongr
        exact_mod_cast hbits
      _ = 2 ^ (N + 1) := by
        rw [← zpow_add₀ two_ne_zero, hN]
        congr 1
        omega
  have hgrid : (2 : ℚ) ^ (N - 1) ≤ 10 ^ gridExp m e i * 10 ^ (18 : ℤ) :=
    calc (2 : ℚ) ^ (N - 1) ≤ 10 ^ (N * 30103 / 100000 + 1) :=
          two_zpow_le_ten_zpow (by omega) (by omega) (by omega)
      _ ≤ 10 ^ (gridExp m e i + 18) := by
        refine zpow_le_zpow_right₀ (by norm_num) ?_
        rw [gridExp]
        omega
      _ = 10 ^ gridExp m e i * 10 ^ (18 : ℤ) := zpow_add₀ (by norm_num) _ _
  have hle : (n : ℚ) * 2 ^ (N - 1) ≤ 4 * 10 ^ (18 : ℤ) * 2 ^ (N - 1) :=
    calc (n : ℚ) * 2 ^ (N - 1) ≤ n * (10 ^ gridExp m e i * 10 ^ (18 : ℤ)) := by gcongr
      _ = n * 10 ^ gridExp m e i * 10 ^ (18 : ℤ) := by ring
      _ ≤ 2 ^ (N + 1) * 10 ^ (18 : ℤ) := by gcongr
      _ = 4 * 10 ^ (18 : ℤ) * 2 ^ (N - 1) := by
        rw [show N + 1 = 2 + (N - 1) by omega, zpow_add₀ two_ne_zero]
        norm_num
        ring
  have hn : (n : ℚ) ≤ 4 * 10 ^ (18 : ℤ) := le_of_mul_le_mul_right hle (by positivity)
  have hn : n ≤ 4 * 10 ^ 18 := by exact_mod_cast hn
  simp only
  omega

end shortest

/-- The first digit stands at the exponent that `lead` gives. -/
lemma ten_zpow_lead_le {d : Decimal} (hd : d.digits ≠ 0) : (10 : ℚ) ^ d.lead ≤ d.value := by
  have hpos : 0 < (digitsOf d.digits).length := Nat.length_toDigits_pos
  have hle : 10 ^ ((digitsOf d.digits).length - 1) ≤ d.digits := by
    rcases Nat.eq_zero_or_pos ((digitsOf d.digits).length - 1) with h | h
    · rw [h]
      omega
    · rw [← not_lt, ← Nat.length_toDigits_le_iff (by decide) h]
      unfold digitsOf at *
      omega
  calc (10 : ℚ) ^ d.lead = 10 ^ ((digitsOf d.digits).length - 1) * 10 ^ d.exp := by
        rw [← zpow_natCast, ← zpow_add₀ (by norm_num), lead]
        congr 1
        omega
    _ ≤ d.digits * 10 ^ d.exp := by
      gcongr
      exact_mod_cast hle

lemma lt_ten_zpow_lead (d : Decimal) : d.value < (10 : ℚ) ^ (d.lead + 1) := by
  have hpos : 0 < (digitsOf d.digits).length := Nat.length_toDigits_pos
  have hlt : d.digits < 10 ^ (digitsOf d.digits).length :=
    (Nat.length_toDigits_le_iff (by decide) hpos).mp le_rfl
  calc (d.digits : ℚ) * 10 ^ d.exp < 10 ^ (digitsOf d.digits).length * 10 ^ d.exp := by
        gcongr
        exact_mod_cast hlt
    _ = 10 ^ (d.lead + 1) := by
      rw [← zpow_natCast, ← zpow_add₀ (by norm_num), lead]
      congr 1
      omega

/-- A decimal in the interval of a double is read as that double. -/
theorem toFloat_of_near {x : Float} {neg : Bool} {m : ℕ} {e : ℤ}
    (hx : Binary64.decode x = .finite neg m e) (hm : 0 < m) {d : Decimal}
    (h : Near m e d.value) : d.toFloat neg = x := by
  have hc := (Binary64.decode_eq_finite_iff.mp hx).1
  have hlow := hc.low
  have hhigh := hc.high
  have hge : (2 : ℚ) ^ (-1075 : ℤ) ≤ d.value :=
    (zpow_le_zpow_right₀ one_le_two (by omega)).trans (h.le_of_pos hm)
  have hle : d.value < (2 : ℚ) ^ (1024 : ℤ) :=
    (h.lt_of_canonical hc).trans_le (zpow_le_zpow_right₀ one_le_two (by omega))
  have hdigits : d.digits ≠ 0 := by
    intro h0
    rw [value, h0, Nat.cast_zero, zero_mul] at hge
    exact absurd hge (not_le.mpr (by positivity))
  have hlead : -330 ≤ d.lead := by
    by_contra hlt
    have h₁ : (10 : ℚ) ^ (d.lead + 1) ≤ 10 ^ (-330 : ℤ) :=
      zpow_le_zpow_right₀ (by norm_num) (by omega)
    have h₂ := ten_zpow_le_two_zpow (s := -330) (n := -1076) (by omega) (by omega) (by omega)
    have h₃ := lt_ten_zpow_lead d
    exact absurd (hge.trans_lt h₃) (not_lt.mpr (h₁.trans h₂))
  have hlead' : d.lead ≤ 310 := by
    by_contra hlt
    have h₁ : (10 : ℚ) ^ (310 : ℤ) ≤ 10 ^ d.lead := zpow_le_zpow_right₀ (by norm_num) (by omega)
    have h₂ := two_zpow_le_ten_zpow (s := 310) (n := 1025) (by omega) (by omega) (by omega)
    have h₃ := ten_zpow_lead_le hdigits
    exact absurd hle (not_lt.mpr (h₂.trans (h₁.trans h₃)))
  have hratio : ((d.digits * Nat.pow 10 d.exp.toNat : ℕ) : ℚ) / (Nat.pow 10 (-d.exp).toNat : ℕ) =
      d.value := by
    rw [value, zpow_eq_toNat_div]
    push_cast [Nat.pow_eq]
    ring
  rw [toFloat, if_neg (by simp [hdigits, hlead]), if_neg (by omega)]
  refine Binary64.ofRatio_of_near hx ?_ (Nat.pow_pos (by decide)) (by rwa [hratio])
  exact Nat.mul_pos (Nat.pos_of_ne_zero hdigits) (Nat.pow_pos (by decide))

/-- **The shortest decimal reads back**, however its digits and its exponent are shifted against
each other. -/
theorem toFloat_of_value_eq_shortest {x : Float} {neg : Bool} {m : ℕ} {e : ℤ} {tie : Tie}
    (hx : Binary64.decode x = .finite neg m e) {d : Decimal}
    (hd : d.value = (shortest tie m e).value) : d.toFloat neg = x := by
  have hc := (Binary64.decode_eq_finite_iff.mp hx).1
  rcases Nat.eq_zero_or_pos m with rfl | hm
  · have hzero : d.digits = 0 := by
      have hten : (10 : ℚ) ^ d.exp ≠ 0 := by positivity
      simpa [shortest, value, hten] using hd
    rw [toFloat, if_pos (by simp [hzero])]
    refine Binary64.ofRatio_eq hx ?_
    obtain rfl : e = -1074 := by simpa [Binary64.lead] using hc.normal
    rfl
  · exact toFloat_of_near hx hm (hd ▸ near_shortest tie hc hm)

end Decimal
end QCircuit
