import QCircuit.Proofs.Number.Product

/-!
Results that are doubles.

A result that has a canonical form is not rounded, whatever zeros its significand was computed
with. So naturals below `2 ^ 53` are doubles, and so are their quotients by `2 ^ 53`.
-/

namespace QCircuit.Binary64

open Float.Model UnpackedFloat

section Exact

variable {m : ℕ} {e : ℤ}

/-- Only zeros are cut off. -/
lemma mul_two_pow_shiftRight (m j : ℕ) :
    ExtendedMantissa.ofMantissaAndAccuracy (m * 2 ^ j) .exact >>> j = ⟨m, false, false⟩ := by
  induction j generalizing m with
  | zero =>
    rw [pow_zero, mul_one]
    rfl
  | succ j ih =>
    have hstep : ExtendedMantissa.ofMantissaAndAccuracy (m * 2 ^ (j + 1)) .exact >>> (j + 1) =
        (ExtendedMantissa.ofMantissaAndAccuracy (m * 2 * 2 ^ j) .exact >>> j).shiftRightOne := by
      rw [pow_succ', mul_assoc]
      rfl
    rw [hstep, ih, ExtendedMantissa.shiftRightOne]
    simp

lemma roundedMantissa_mul_two_pow (m j : ℕ) :
    (ExtendedMantissa.ofMantissaAndAccuracy (m * 2 ^ j) .exact >>> j).roundedMantissa = m := by
  rw [mul_two_pow_shiftRight]
  rfl

lemma log2_mul_two_pow (hm : 0 < m) (j : ℕ) : (m * 2 ^ j).log2 = m.log2 + j := by
  rw [Nat.log2_eq_iff (by positivity)]
  have hlow := Nat.log2_self_le hm.ne'
  have hhigh := Nat.lt_log2_self (n := m)
  rw [pow_add, add_right_comm, pow_add]
  exact ⟨Nat.mul_le_mul_right _ hlow, Nat.mul_lt_mul_of_pos_right hhigh (by positivity)⟩

lemma place_mul_two_pow (hm : 0 < m) (e : ℤ) (j : ℕ) : place (m * 2 ^ j) (e - j) = place m e := by
  unfold place
  rw [log2_mul_two_pow hm]
  congr 1
  push_cast
  ring

/-- **What has a canonical form is not rounded.** -/
theorem roundWithAccuracy_canonical (hc : Canonical m e) (hm : 0 < m) (neg : Bool) (j : ℕ) :
    roundWithAccuracy Format.binary64 (signOf neg) (m * 2 ^ j) (e - j) .exact =
      (Value.finite neg m e).unpacked := by
  have hplace : place (m * 2 ^ j) (e - j) = e := (place_mul_two_pow hm e j).trans hc.place_eq
  have hcut : (e - (e - j)).toNat = j := by omega
  rw [roundWithAccuracy, shiftToTargetExponent_eq, hplace, hcut]
  simp only [sub_add_cancel, roundedMantissa_mul_two_pow, shiftToTargetExponent_eq, hc.place_eq,
    sub_self, Int.toNat_zero, Nat.cast_zero, add_zero, mantissa_shiftRight, pow_zero, Nat.div_one,
    mantissa_ofMantissaAndAccuracy]
  rfl

lemma stands_canonical (hc : Canonical m e) (hm : 0 < m) (j : ℕ) : Stands (.ofModel
    (Float.Model.pack (roundWithAccuracy Format.binary64 .positive (m * 2 ^ j) (e - j) .exact)))
      (m * 2 ^ e) := by
  rw [show Sign.positive = signOf false from rfl, roundWithAccuracy_canonical hc hm]
  exact stands_pack hc false (by simp)

/-- A natural number below `2 ^ 53` has a canonical form. -/
lemma canonical_of_lt {n : ℕ} (hpos : 0 < n) (hn : n < 2 * lead) :
    Canonical (n * 2 ^ (52 - n.log2)) (-(52 - n.log2 : ℕ)) := by
  have hlog : n.log2 ≤ 52 := log2_le_of_lt (by simpa [lead] using hn)
  have hfull : (n * 2 ^ (52 - n.log2)).log2 = 52 := by
    rw [log2_mul_two_pow hpos]
    omega
  have hne : n * 2 ^ (52 - n.log2) ≠ 0 := by positivity
  have hlow := Nat.log2_self_le hne
  have hhigh := Nat.lt_log2_self (n := n * 2 ^ (52 - n.log2))
  rw [hfull] at hlow hhigh
  exact ⟨by simpa [lead] using hhigh, by omega, by omega, .inl (by simpa [lead] using hlow)⟩

/-- The double of a word below `2 ^ 53` is the word itself. -/
lemma stands_word {n : ℕ} (hn : n < 2 * lead) : Stands n.toUInt64.toFloat n := by
  have hto : n.toUInt64.toNat = n :=
    UInt64.toNat_ofNat_of_lt' (by simp only [UInt64.size]; simp only [lead] at hn; omega)
  have hfloat : n.toUInt64.toFloat = .ofModel (Float.Model.pack
      (normalize Format.binary64 (n.toUInt64.toNat : ℤ) 0 .positive)) := rfl
  rw [hfloat, hto]
  rcases Nat.eq_zero_or_pos n with rfl | hpos
  · exact_mod_cast stands_zero .positive
  · have hround : normalize Format.binary64 (n : ℤ) 0 .positive =
        roundWithAccuracy Format.binary64 .positive (n <<< (0 - place n 0).toNat)
          (0 - (0 - place n 0).toNat) .exact := by
      have hgt : compare (n : ℤ) 0 = .gt := compare_gt_iff_gt.mpr (by omega)
      unfold UnpackedFloat.normalize
      rw [hgt]
      rfl
    have hlog : n.log2 ≤ 52 := log2_le_of_lt (by simpa [lead] using hn)
    have hplace : (0 - place n 0).toNat = 52 - n.log2 := by
      unfold place
      omega
    have hvalue : ((n * 2 ^ (52 - n.log2) : ℕ) : ℚ) * 2 ^ (-((52 - n.log2 : ℕ) : ℤ)) = n := by
      rw [zpow_neg, zpow_natCast]
      push_cast
      field_simp
    have h := stands_canonical (canonical_of_lt hpos hn) (by positivity) 0
    rw [hvalue, pow_zero, mul_one, Nat.cast_zero, sub_zero] at h
    rwa [hround, hplace, Nat.shiftLeft_eq, zero_sub]

/-- Times one. -/
lemma Stands.mul_one {x : Float} {v : ℚ} (hx : Stands x v) : Stands (x * 1.0) v := by
  have hmul : x * 1.0 = .ofModel (Float.Model.pack
      (UnpackedFloat.mul Format.binary64 x.toModel.unpack (1.0 : Float).toModel.unpack)) := rfl
  have hone : (1.0 : Float).toModel.unpack = .finite .positive lead (-52) (by decide) := by
    rw [unpack_eq, show decode 1.0 = .finite false lead (-52) by decide]
    rfl
  rw [hmul, hone]
  rcases hx.unpacked with ⟨rfl, s, hux⟩ | ⟨m, e, hm, hcm, hux, rfl⟩ <;> rw [hux]
  · exact stands_zero _
  · exact stands_canonical hcm hm 52

/-- **Naturals below `2 ^ 53` are doubles.** -/
theorem stands_toFloat {n : ℕ} (hn : n < 2 * lead) : Stands n.toFloat n := by
  -- a natural is read as a decimal, whose power of ten is one
  have hmul : n.toFloat = n.toUInt64.toFloat * 1.0 := by
    have hunfold : n.toFloat = Float.ofScientific n false 0 := rfl
    rw [hunfold, Float.ofScientific, dif_pos ⟨by simp only [lead] at hn; omega, by decide⟩]
    rfl
  exact hmul ▸ (stands_word hn).mul_one

/-- A number that is at least one is far from the least exponent. -/
lemma Canonical.low_of_one_le (hc : Canonical m e) (hone : 1 ≤ (m : ℚ) * 2 ^ e) : -53 < e := by
  by_contra hle
  have hlt : (m : ℚ) < 2 * lead := by exact_mod_cast hc.lt
  have hexponent : (2 : ℚ) ^ e ≤ 2 ^ (-53 : ℤ) := zpow_le_zpow_right₀ one_le_two (by omega)
  have hsmall : (m : ℚ) * 2 ^ e < 1 :=
    calc (m : ℚ) * 2 ^ e ≤ m * 2 ^ (-53 : ℤ) := by gcongr
      _ < 2 * lead * 2 ^ (-53 : ℤ) := by gcongr
      _ = 1 := by norm_num [lead]
  exact absurd hone (not_le.mpr hsmall)

/-- The quotient by `2 ^ 53`: one bit more than the dividend, and no remainder. -/
lemma divCore_two_pow (hfull : lead ≤ m) (hlt : m < 2 * lead) (he : -53 < e) :
    divCore Format.binary64 m e lead 1 = (m * 2 ^ 1, e - 53 - (1 : ℕ), .exact) := by
  have hlog := log2_eq_of_lead_le hfull hlt
  have hlead : lead.log2 = 52 := by decide
  have htarget : min (e - 1) (Format.binary64.targetExponent
      (totalExponent m e - totalExponent lead 1)) = e - 54 := by
    have hunfold : Format.binary64.targetExponent (totalExponent m e - totalExponent lead 1) =
        max (m.log2 + 1 + e - (lead.log2 + 1 + 1) - 53) (-1074) := rfl
    rw [hunfold, hlog, hlead]
    omega
  have hshift : (e - 1 - (e - 54)).toNat = 53 := by omega
  have hquotient : m <<< 53 = lead * (m * 2 ^ 1) := by
    rw [Nat.shiftLeft_eq, show 2 ^ 53 = lead * 2 ^ 1 by decide]
    ring
  unfold divCore
  simp only [htarget, hshift]
  rw [hquotient, Nat.mul_div_cancel_left _ (by decide), Nat.mul_mod_right]
  exact Prod.ext rfl (Prod.ext (by push_cast; ring) rfl)

/-- **Divided by `2 ^ 53`.** Only the exponent changes. -/
theorem Stands.div_two_pow {x : Float} {v : ℚ} (hx : Stands x v) (hv : v = 0 ∨ 1 ≤ v) :
    Stands (x / 9007199254740992.0) (v / 2 ^ 53) := by
  have hdiv : x / 9007199254740992.0 = .ofModel (Float.Model.pack (UnpackedFloat.div
      Format.binary64 x.toModel.unpack (9007199254740992.0 : Float).toModel.unpack)) := rfl
  have htwo :
      (9007199254740992.0 : Float).toModel.unpack = .finite .positive lead 1 (by decide) := by
    rw [unpack_eq, show decode 9007199254740992.0 = .finite false lead 1 by decide]
    rfl
  rw [hdiv, htwo]
  rcases hx.unpacked with ⟨rfl, s, hux⟩ | ⟨m, e, hm, hc, hux, rfl⟩ <;> rw [hux]
  · rw [zero_div]
    exact stands_zero _
  · have hlow := hc.low_of_one_le (hv.resolve_left (by positivity))
    have hhigh := hc.high
    have hfull : lead ≤ m := hc.normal.resolve_right (by omega)
    have hround : UnpackedFloat.div Format.binary64 (.finite .positive m e hm)
        (.finite .positive lead 1 (by decide)) =
          roundWithAccuracy Format.binary64 .positive (m * 2 ^ 1) (e - 53 - (1 : ℕ)) .exact := by
      unfold UnpackedFloat.div
      simp only [divCore_two_pow hfull hc.lt hlow]
      rfl
    have hvalue : (m : ℚ) * 2 ^ e / 2 ^ 53 = m * 2 ^ (e - 53) := by
      rw [zpow_sub₀ two_ne_zero, mul_div_assoc]
      norm_cast
    rw [hround, hvalue]
    exact stands_canonical ⟨hc.lt, by omega, by omega, .inl hfull⟩ hm 1

end Exact

end QCircuit.Binary64
