import Mathlib.Tactic
import QCircuit.Proofs.Number.Bits

/-!
Rounding a ratio to the nearest double.

The rationals that round to a double fill an interval around it: half a unit of the last place to
both sides, a quarter below a power of two, and the ends belong to it when the significand is even.
Whatever lies in that interval is rounded to the bits of that double.
-/

namespace QCircuit

/-! ### Powers and shifts as rationals -/

lemma zpow_eq_toNat_div (a : ℚ) (k : ℤ) : a ^ k = a ^ k.toNat / a ^ (-k).toNat := by
  rcases le_total 0 k with hk | hk
  · lift k to ℕ using hk
    simp
  · obtain ⟨n, rfl⟩ : ∃ n : ℕ, k = -n := ⟨(-k).toNat, by omega⟩
    simp

lemma cast_shift_div (num den : ℕ) (e : ℤ) :
    ((num <<< (-e).toNat : ℕ) : ℚ) / (den <<< e.toNat : ℕ) = num / den / 2 ^ e := by
  rw [zpow_eq_toNat_div, Nat.shiftLeft_eq, Nat.shiftLeft_eq]
  push_cast
  field_simp

lemma natDiv_lt_iff {num den k : ℕ} (hden : 0 < den) : num / den < k ↔ (num : ℚ) / den < k := by
  rw [Nat.div_lt_iff_lt_mul hden, div_lt_iff₀ (by exact_mod_cast hden)]
  norm_cast

/-! ### Rounding to a natural number -/

lemma roundDiv_even_eq {num den m : ℕ} (hden : 0 < den) (hlow : (m : ℚ) - 1 / 2 ≤ num / den)
    (hhigh : (num : ℚ) / den ≤ m + 1 / 2)
    (hodd : m % 2 = 1 → (m : ℚ) - 1 / 2 < num / den ∧ (num : ℚ) / den < m + 1 / 2) :
    roundDiv .even num den = m := by
  have hd : (0 : ℚ) < den := by exact_mod_cast hden
  rw [le_div_iff₀ hd] at hlow
  rw [div_le_iff₀ hd] at hhigh
  rw [lt_div_iff₀ hd, div_lt_iff₀ hd] at hodd
  have hlow' : 2 * (den * m) ≤ 2 * num + den := by
    have : (2 : ℚ) * (den * m) ≤ 2 * num + den := by linarith
    exact_mod_cast this
  have hhigh' : 2 * num ≤ 2 * (den * m) + den := by
    have : (2 : ℚ) * num ≤ 2 * (den * m) + den := by linarith
    exact_mod_cast this
  have hodd' : m % 2 = 1 → 2 * (den * m) < 2 * num + den ∧ 2 * num < 2 * (den * m) + den := by
    intro h
    obtain ⟨h₁, h₂⟩ := hodd h
    have h₁ : (2 : ℚ) * (den * m) < 2 * num + den := by linarith
    have h₂ : (2 : ℚ) * num < 2 * (den * m) + den := by linarith
    exact ⟨by exact_mod_cast h₁, by exact_mod_cast h₂⟩
  -- the quotient is `m` or the number before it
  have hdiv := Nat.div_add_mod num den
  have hmod := Nat.mod_lt num hden
  have hle : num / den ≤ m := by
    by_contra h
    have : den * (m + 1) ≤ den * (num / den) := Nat.mul_le_mul_left _ (by omega)
    rw [mul_add] at this
    omega
  have hge : m ≤ num / den + 1 := by
    by_contra h
    have : den * (num / den + 2) ≤ den * m := Nat.mul_le_mul_left _ (by omega)
    rw [mul_add] at this
    omega
  rcases Nat.eq_or_lt_of_le hle with h | h
  · rw [← h] at hlow' hhigh' hodd' ⊢
    simp only [roundDiv]
    split_ifs <;> omega
  · obtain rfl : m = num / den + 1 := by omega
    rw [mul_add, mul_one] at hlow' hhigh' hodd'
    simp only [roundDiv]
    split_ifs <;> omega

namespace Binary64

lemma lead_mul_zpow (k : ℤ) : (lead : ℚ) * 2 ^ k = 2 ^ (k + 52) := by
  have h : (lead : ℚ) = 2 ^ (52 : ℤ) := by norm_num [lead]
  rw [h, ← zpow_add₀ two_ne_zero, add_comm]

lemma two_lead_mul_zpow (k : ℤ) : 2 * (lead : ℚ) * 2 ^ k = 2 ^ (k + 53) := by
  rw [mul_assoc, lead_mul_zpow, ← zpow_one_add₀ two_ne_zero]
  congr 1
  omega

/-! ### The exponent of a ratio -/

section exponent

variable {num den : ℕ}

lemma two_zpow_log2_lt (hnum : 0 < num) (hden : 0 < den) :
    (2 : ℚ) ^ ((num.log2 : ℤ) - den.log2 - 1) < num / den := by
  have hd : (0 : ℚ) < den := by exact_mod_cast hden
  have h₁ : (2 : ℚ) ^ (num.log2 : ℤ) ≤ num := by exact_mod_cast Nat.log2_self_le hnum.ne'
  have h₂ : (den : ℚ) < 2 ^ ((den.log2 : ℤ) + 1) := by exact_mod_cast Nat.lt_log2_self
  rw [lt_div_iff₀ hd]
  calc (2 : ℚ) ^ ((num.log2 : ℤ) - den.log2 - 1) * den
      < 2 ^ ((num.log2 : ℤ) - den.log2 - 1) * 2 ^ ((den.log2 : ℤ) + 1) := by gcongr
    _ = 2 ^ (num.log2 : ℤ) := by
      rw [← zpow_add₀ two_ne_zero]
      congr 1
      ring
    _ ≤ num := h₁

lemma lt_two_zpow_log2 (hden : 0 < den) : (num : ℚ) / den < 2 ^ ((num.log2 : ℤ) - den.log2 + 1) := by
  have hd : (0 : ℚ) < den := by exact_mod_cast hden
  have h₁ : (num : ℚ) < 2 ^ ((num.log2 : ℤ) + 1) := by exact_mod_cast Nat.lt_log2_self
  have h₂ : (2 : ℚ) ^ (den.log2 : ℤ) ≤ den := by exact_mod_cast Nat.log2_self_le hden.ne'
  rw [div_lt_iff₀ hd]
  calc (num : ℚ) < 2 ^ ((num.log2 : ℤ) + 1) := h₁
    _ = 2 ^ ((num.log2 : ℤ) - den.log2 + 1) * 2 ^ (den.log2 : ℤ) := by
      rw [← zpow_add₀ two_ne_zero]
      congr 1
      ring
    _ ≤ 2 ^ ((num.log2 : ℤ) - den.log2 + 1) * den := by gcongr

/-- In units of `2 ^ e` the ratio has 53 bits, or `e` is the least exponent and it has fewer. -/
lemma exponentOf_spec (hnum : 0 < num) (hden : 0 < den) : -1074 ≤ exponentOf num den ∧
    (num : ℚ) / den < 2 ^ (exponentOf num den + 53) ∧
    (exponentOf num den = -1074 ∨ 2 ^ (exponentOf num den + 52) ≤ (num : ℚ) / den) := by
  obtain ⟨low, hlow⟩ : ∃ low : ℤ, low = max ((num.log2 : ℤ) - den.log2 - 53) (-1074) := ⟨_, rfl⟩
  have hgt := two_zpow_log2_lt hnum hden
  have hlt := @lt_two_zpow_log2 num den hden
  have hpos : 0 < den <<< low.toNat := by
    rw [Nat.shiftLeft_eq]
    positivity
  have hcond : num <<< (-low).toNat / (den <<< low.toNat) < 2 * lead ↔
      (num : ℚ) / den < 2 ^ (low + 53) := by
    rw [natDiv_lt_iff hpos, cast_shift_div, div_lt_iff₀ (by positivity)]
    push_cast
    rw [two_lead_mul_zpow]
  have hE : exponentOf num den = if (num : ℚ) / den < 2 ^ (low + 53) then low else low + 1 := by
    simp only [exponentOf, ← hlow, hcond]
  rw [hE]
  split_ifs with h
  · refine ⟨by omega, h, ?_⟩
    rcases max_choice ((num.log2 : ℤ) - den.log2 - 53) (-1074) with hmax | hmax
    · right
      rw [hlow, hmax]
      exact (zpow_le_zpow_right₀ one_le_two (by omega)).trans hgt.le
    · exact .inl (hlow.trans hmax)
  · refine ⟨by omega, hlt.trans_le ?_, .inr ?_⟩
    · exact zpow_le_zpow_right₀ one_le_two (by omega)
    · exact (zpow_le_zpow_right₀ one_le_two (by omega)).trans (not_lt.mp h)

end exponent

/-! ### The interval of a double -/

/-- The least rational that may round to `m · 2 ^ e`, in quarters of `2 ^ e`: below a power of two
the doubles are twice as dense. -/
def quarterLow (m : ℕ) (e : ℤ) : ℚ := if m = lead ∧ -1074 < e then 4 * m - 1 else 4 * m - 2

/-- The rationals that round to the double `m · 2 ^ e`. -/
structure Near (m : ℕ) (e : ℤ) (x : ℚ) : Prop where
  low : quarterLow m e * 2 ^ (e - 2) ≤ x
  high : x ≤ (4 * m + 2) * 2 ^ (e - 2)
  odd : m % 2 = 1 → quarterLow m e * 2 ^ (e - 2) < x ∧ x < (4 * m + 2) * 2 ^ (e - 2)

lemma four_mul_sub_two_le_quarterLow (m : ℕ) (e : ℤ) : 4 * (m : ℚ) - 2 ≤ quarterLow m e := by
  unfold quarterLow
  split_ifs <;> linarith

/-- In units of the last place. -/
lemma Near.div {m : ℕ} {e : ℤ} {x : ℚ} (h : Near m e x) :
    (m : ℚ) - 1 / 2 ≤ x / 2 ^ e ∧ x / 2 ^ e ≤ m + 1 / 2 ∧
      (m % 2 = 1 → (m : ℚ) - 1 / 2 < x / 2 ^ e ∧ x / 2 ^ e < m + 1 / 2) := by
  obtain ⟨hlow, hhigh, hodd⟩ := h
  have hu : (0 : ℚ) < 2 ^ e := by positivity
  have hquarter : (2 : ℚ) ^ (e - 2) = 2 ^ e / 4 := by
    rw [zpow_sub₀ two_ne_zero]
    norm_num
  have hle : ((m : ℚ) - 1 / 2) * 2 ^ e ≤ quarterLow m e * 2 ^ (e - 2) := by
    rw [hquarter]
    nlinarith [four_mul_sub_two_le_quarterLow m e]
  have hge : (4 * (m : ℚ) + 2) * 2 ^ (e - 2) = (m + 1 / 2) * 2 ^ e := by
    rw [hquarter]
    ring
  rw [hge] at hhigh hodd
  rw [le_div_iff₀ hu, div_le_iff₀ hu, lt_div_iff₀ hu, div_lt_iff₀ hu]
  exact ⟨hle.trans hlow, hhigh, fun hm => ⟨hle.trans_lt (hodd hm).1, (hodd hm).2⟩⟩

lemma magnitude_of_roundDiv {num den q : ℕ} (hnum : num ≠ 0)
    (hround : roundDiv .even (num <<< (-exponentOf num den).toNat)
      (den <<< (exponentOf num den).toNat) = q)
    (hlt : bitsOf q (exponentOf num den) < 2047 * lead) :
    magnitude num den = bitsOf q (exponentOf num den) := by
  rw [magnitude, if_neg hnum]
  simp only [hround]
  exact min_eq_left hlt.le

lemma shiftLeft_pos {n : ℕ} (hn : 0 < n) (k : ℕ) : 0 < n <<< k := by
  rw [Nat.shiftLeft_eq]
  positivity

section interval

variable {m : ℕ} {e : ℤ} {x : ℚ}

lemma Near.lt_of_canonical (h : Near m e x) (hc : Canonical m e) : x < 2 ^ (e + 53) := by
  have hm : (m : ℚ) + 1 ≤ 2 * lead := by exact_mod_cast hc.lt
  calc x ≤ (4 * m + 2) * 2 ^ (e - 2) := h.high
    _ < 4 * (2 * lead * 2 ^ (e - 2)) := by
      rw [← mul_assoc]
      gcongr
      linarith
    _ = 2 ^ (e + 53) := by
      rw [two_lead_mul_zpow, show (4 : ℚ) = 2 ^ (2 : ℤ) by norm_num, ← zpow_add₀ two_ne_zero]
      congr 1
      omega

lemma Near.le_of_pos (h : Near m e x) (hm : 0 < m) : (2 : ℚ) ^ (e - 1) ≤ x := by
  have hm : (1 : ℚ) ≤ m := by exact_mod_cast hm
  calc (2 : ℚ) ^ (e - 1) = 2 * 2 ^ (e - 2) := by
        rw [← zpow_one_add₀ two_ne_zero]
        congr 1
        omega
    _ ≤ quarterLow m e * 2 ^ (e - 2) := by
      gcongr
      linarith [four_mul_sub_two_le_quarterLow m e]
    _ ≤ x := h.low

/-- A larger exponent does not fit: the interval ends before the next power of two. -/
lemma Near.exponentOf_le (hc : Canonical m e) {num den : ℕ} (hnum : 0 < num) (hden : 0 < den)
    (h : Near m e (num / den)) : exponentOf num den ≤ e := by
  obtain ⟨-, -, hfull⟩ := exponentOf_spec hnum hden
  by_contra hlt
  have hlow := hc.low
  rcases hfull with hfull | hfull
  · omega
  · have hle : (2 : ℚ) ^ (e + 53) ≤ 2 ^ (exponentOf num den + 52) :=
      zpow_le_zpow_right₀ one_le_two (by omega)
    exact absurd (h.lt_of_canonical hc) (not_lt.mpr (hle.trans hfull))

/-- A smaller exponent is right for the part of the interval below a power of two only. -/
lemma Near.eq_lead_of_exponentOf_lt (hc : Canonical m e) {num den : ℕ} (hnum : 0 < num)
    (hden : 0 < den) (h : Near m e (num / den)) (hlt : exponentOf num den < e) :
    m = lead ∧ exponentOf num den = e - 1 ∧ 2 * (lead : ℚ) - 1 / 2 ≤ num / den / 2 ^ (e - 1) ∧
      (num : ℚ) / den / 2 ^ (e - 1) < 2 * lead := by
  obtain ⟨hleast, hfit, -⟩ := exponentOf_spec hnum hden
  have hlead : lead ≤ m := hc.normal.resolve_right (by omega)
  have hu : (0 : ℚ) < 2 ^ (e - 2) := by positivity
  have hdouble : (2 : ℚ) ^ (e - 1) = 2 * 2 ^ (e - 2) := by
    rw [← zpow_one_add₀ two_ne_zero]
    congr 1
    omega
  have hfit' : (num : ℚ) / den < 4 * lead * 2 ^ (e - 2) :=
    calc (num : ℚ) / den < 2 ^ (exponentOf num den + 53) := hfit
      _ ≤ 2 ^ (e - 1 + 53) := zpow_le_zpow_right₀ one_le_two (by omega)
      _ = 4 * lead * 2 ^ (e - 2) := by
        rw [← two_lead_mul_zpow, hdouble]
        ring
  have hm : m = lead := by
    by_contra hne
    have hgt : (lead : ℚ) + 1 ≤ m := by exact_mod_cast Nat.lt_of_le_of_ne hlead (Ne.symm hne)
    have hlow := h.low
    rw [quarterLow, if_neg (fun hm => hne hm.1)] at hlow
    nlinarith
  have hlow : (4 * (lead : ℚ) - 1) * 2 ^ (e - 2) ≤ num / den := by
    have := h.low
    rwa [quarterLow, if_pos ⟨hm, by omega⟩, hm] at this
  refine ⟨hm, ?_, ?_, ?_⟩
  · by_contra hne
    have hfit'' : (num : ℚ) / den < 2 * lead * 2 ^ (e - 2) :=
      calc (num : ℚ) / den < 2 ^ (exponentOf num den + 53) := hfit
        _ ≤ 2 ^ (e - 2 + 53) := zpow_le_zpow_right₀ one_le_two (by omega)
        _ = 2 * lead * 2 ^ (e - 2) := (two_lead_mul_zpow _).symm
    have : (1 : ℚ) < lead := by norm_num [lead]
    nlinarith
  · rw [hdouble, le_div_iff₀ (by positivity)]
    linarith
  · rw [hdouble, div_lt_iff₀ (by positivity)]
    linarith

/-- **Rounding finds the double**: whatever lies in the interval of a double is rounded to its
bits. -/
theorem magnitude_eq_bitsOf (hc : Canonical m e) {num den : ℕ} (hnum : 0 < num) (hden : 0 < den)
    (h : Near m e (num / den)) : magnitude num den = bitsOf m e := by
  have hpos := shiftLeft_pos hden (exponentOf num den).toNat
  have hbits := hc.bitsOf_lt
  rcases (h.exponentOf_le hc hnum hden).eq_or_lt with heq | hlt
  · obtain ⟨hlow, hhigh, hodd⟩ := h.div
    have hround := @roundDiv_even_eq (num <<< (-exponentOf num den).toNat) _ m hpos
    rw [cast_shift_div, heq] at hround
    rw [← heq] at hbits ⊢
    exact magnitude_of_roundDiv hnum.ne' (by rw [heq]; exact hround hlow hhigh hodd) hbits
  · -- the ratio rounds up to the power of two
    obtain ⟨rfl, heq, hlow, hhigh⟩ := h.eq_lead_of_exponentOf_lt hc hnum hden hlt
    have hcarry : bitsOf (2 * lead) (exponentOf num den) = bitsOf lead e := by
      obtain ⟨hleast, -, -⟩ := exponentOf_spec hnum hden
      simp only [bitsOf, lead]
      omega
    have hround := @roundDiv_even_eq (num <<< (-exponentOf num den).toNat) _ (2 * lead) hpos
    rw [cast_shift_div, heq] at hround
    rw [← hcarry] at hbits ⊢
    refine magnitude_of_roundDiv hnum.ne' ?_ hbits
    rw [heq]
    push_cast at hround
    exact hround hlow (by linarith) (by omega)

end interval

/-! ### From bits to the double -/

lemma ofRatio_eq {x : Float} {neg : Bool} {m : ℕ} {e : ℤ} (hx : decode x = .finite neg m e)
    {num den : ℕ} (h : magnitude num den = bitsOf m e) : ofRatio neg num den = x := by
  have hc := (decode_eq_finite_iff.mp hx).1
  have hlt := hc.bitsOf_lt
  refine eq_of_decode (decode_ofBits hc ?_) hx
  rw [h, UInt64.toNat_ofNat_of_lt', add_comm]
  · rfl
  · simp only [lead] at hlt
    split_ifs <;> simp only [UInt64.size] <;> omega

/-- A ratio in the interval of a double is rounded to that double. -/
theorem ofRatio_of_near {x : Float} {neg : Bool} {m : ℕ} {e : ℤ}
    (hx : decode x = .finite neg m e) {num den : ℕ} (hnum : 0 < num) (hden : 0 < den)
    (h : Near m e (num / den)) : ofRatio neg num den = x :=
  ofRatio_eq hx (magnitude_eq_bitsOf (decode_eq_finite_iff.mp hx).1 hnum hden h)

end Binary64
end QCircuit
