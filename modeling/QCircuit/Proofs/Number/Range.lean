import Mathlib.Tactic
import QCircuit.Angle
import QCircuit.Proofs.Number.Rounding

/-!
The range of an angle in degrees.

A remainder is smaller than what it is divided by, and from there two operations lead to degrees.
Bounds on exponents carry through both, far below where a double overflows, so the degrees of
finite radians are finite. All others are not a number.
-/

namespace QCircuit.Binary64

open Float.Model

/-- Finite with an exponent of at most `k`. -/
def Capped (k : ℤ) (x : Float) : Prop := ∃ neg m e, decode x = .finite neg m e ∧ e ≤ k

/-- The same before packing, where zero has no exponent. -/
def CappedUnpacked (k : ℤ) : UnpackedFloat → Prop
  | .zero _ => True
  | .finite _ _ e _ => e ≤ k
  | _ => False

lemma Capped.isFinite {k : ℤ} {x : Float} (h : Capped k x) : x.isFinite := by
  obtain ⟨neg, m, e, hx, -⟩ := h
  exact isFinite_iff.mpr ⟨neg, m, e, hx⟩

/-! ### Packing -/

section packing

variable {k : ℤ}

lemma capped_ofFields (hlow : -1074 ≤ k) {neg : Bool} {exponent fraction : ℕ}
    (hE : exponent < 2047) (hk : (exponent : ℤ) - 1075 ≤ k) :
    ∃ neg' m e, ofFields neg exponent fraction = .finite neg' m e ∧ e ≤ k := by
  rw [ofFields, if_neg hE.ne]
  split_ifs
  · exact ⟨_, _, _, rfl, hlow⟩
  · exact ⟨_, _, _, rfl, hk⟩

lemma exists_signOf (s : UnpackedFloat.Sign) : ∃ neg, s = signOf neg := by
  cases s
  · exact ⟨true, rfl⟩
  · exact ⟨false, rfl⟩

/-- Packing keeps the exponent, or loses it with a significand that is too short. -/
lemma capped_pack (hlow : -1074 ≤ k) (hhigh : k ≤ 971) {u : UnpackedFloat}
    (h : CappedUnpacked k u) : Capped k (.ofModel (Float.Model.pack u)) := by
  have hpacked : ∀ (neg : Bool) (exponent : BitVec 11) (fraction : BitVec 52),
      UnpackedFloat.pack Format.binary64 u =
        UnpackedFloat.packComponents Format.binary64 (signOf neg) exponent fraction →
      decode (.ofModel (Float.Model.pack u)) = ofFields neg exponent.toNat fraction.toNat := by
    intro neg exponent fraction heq
    refine decode_of_fields exponent.isLt fraction.isLt ?_
    rw [← toNat_packComponents, ← heq]
    rfl
  cases u with
  | notANumber => exact h.elim
  | infinity s => exact h.elim
  | zero s =>
    obtain ⟨neg, rfl⟩ := exists_signOf s
    exact ⟨neg, 0, -1074, hpacked neg _ _ rfl, hlow⟩
  | finite s m e hm =>
    obtain ⟨neg, rfl⟩ := exists_signOf s
    have he : e ≤ k := h
    have hbias : (e + (1023 : ℕ) + (52 : ℕ)).toNat = (e + 1075).toNat := by omega
    have hpack : UnpackedFloat.pack Format.binary64 (.finite (signOf neg) m e hm) =
        UnpackedFloat.packComponents Format.binary64 (signOf neg)
          (if m.log2 + 1 = 53 then BitVec.ofNat 11 (e + 1075).toNat else 0#11)
          (BitVec.ofNat 52 m) := by
      simp only [UnpackedFloat.pack, exponentBias_eq, Format.mantissaBits, hbias]
      rw [if_neg (by omega)]
      split_ifs <;> rfl
    rw [Capped, hpacked neg _ _ hpack]
    apply capped_ofFields hlow
    · split_ifs <;> simp only [BitVec.toNat_ofNat] <;> omega
    · split_ifs <;> simp only [BitVec.toNat_ofNat] <;> omega

end packing

/-! ### Rounding -/

section rounding

open UnpackedFloat

lemma mantissa_ofMantissaAndAccuracy (m : ℕ) (accuracy : Accuracy) :
    (ExtendedMantissa.ofMantissaAndAccuracy m accuracy).mantissa = m := by
  unfold ExtendedMantissa.ofMantissaAndAccuracy
  split <;> rfl

lemma mantissa_shiftRight (em : ExtendedMantissa) (n : ℕ) :
    (em >>> n).mantissa = em.mantissa / 2 ^ n := by
  induction n with
  | zero => exact (Nat.div_one _).symm
  | succ n ih =>
    calc (em >>> (n + 1)).mantissa = (em >>> n).mantissa / 2 := rfl
      _ = em.mantissa / 2 ^ (n + 1) := by rw [ih, Nat.div_div_eq_div_mul, pow_succ]

lemma roundedMantissa_le (em : ExtendedMantissa) : em.roundedMantissa ≤ em.mantissa + 1 := by
  unfold ExtendedMantissa.roundedMantissa Accuracy.roundToNearestEven
  split <;> omega

lemma log2_le_succ {r m : ℕ} (h : r ≤ m + 1) : r.log2 ≤ m.log2 + 1 := by
  refine log2_le_of_lt ?_
  have := Nat.lt_log2_self (n := m)
  rw [pow_succ]
  omega

lemma log2_div_two_pow (m n : ℕ) : (m / 2 ^ n).log2 = m.log2 - n := by
  simp [Nat.log2_eq_log_two, Nat.log_div_base_pow]

/-- **Rounding lifts the exponent by one at most.** -/
theorem capped_roundWithAccuracy {k e : ℤ} {m : ℕ} (hlow : -1074 ≤ k) (he : e ≤ k)
    (htotal : m.log2 + e ≤ k + 52) (s : Sign) (accuracy : Accuracy) :
    CappedUnpacked (k + 1) (roundWithAccuracy Format.binary64 s m e accuracy) := by
  have htarget : ∀ t, Format.binary64.targetExponent t = max (t - 53) (-1074) := fun _ => rfl
  obtain ⟨n, hn⟩ : ∃ n, n = (max (m.log2 + 1 + e - 53) (-1074) - e).toNat := ⟨_, rfl⟩
  obtain ⟨em, hem⟩ : ∃ em, em = ExtendedMantissa.ofMantissaAndAccuracy m accuracy >>> n := ⟨_, rfl⟩
  have hfirst : shiftToTargetExponent Format.binary64 m e accuracy = (em, e + n) := by
    rw [shiftToTargetExponent, htarget, shiftToExponent, totalExponent, ← hn, hem]
  have hlog : em.roundedMantissa.log2 ≤ m.log2 - n + 1 := by
    rw [← log2_div_two_pow, ← mantissa_ofMantissaAndAccuracy m accuracy, ← mantissa_shiftRight,
      ← hem]
    exact log2_le_succ (roundedMantissa_le em)
  unfold roundWithAccuracy
  rw [hfirst]
  simp only [shiftToTargetExponent, shiftToExponent, htarget, totalExponent]
  split
  · trivial
  · -- the exponent of the second shift, which makes room for a carry
    simp only [CappedUnpacked]
    omega

end rounding

/-! ### Quotients and products -/

section operations

variable {k f : ℤ} {x y : Float} {neg : Bool} {n : ℕ}

lemma lt_of_decode {m : ℕ} {e : ℤ} (hx : decode x = .finite neg m e) : m < 2 ^ 53 :=
  (decode_eq_finite_iff.mp hx).1.lt

lemma unpacked_finite {m : ℕ} (e : ℤ) (hm : 0 < m) :
    (Value.finite neg m e).unpacked = .finite (signOf neg) m e hm := by
  rw [Value.unpacked, dif_neg hm.ne']

lemma Capped.unpack_cases (hx : Capped k x) : (∃ s, x.toModel.unpack = .zero s) ∨
    ∃ s m e hm, x.toModel.unpack = .finite s m e hm ∧ m < 2 ^ 53 ∧ e ≤ k := by
  obtain ⟨neg, m, e, hdecode, he⟩ := hx
  rw [unpack_eq, hdecode]
  rcases Nat.eq_zero_or_pos m with rfl | hm
  · exact .inl ⟨_, rfl⟩
  · exact .inr ⟨_, m, e, hm, unpacked_finite e hm, lt_of_decode hdecode, he⟩

/-- A quotient is at most as large as what is divided. -/
lemma Capped.div (hx : Capped k x) (hy : decode y = .finite neg n f) (hn : 0 < n)
    (hlow : -1074 ≤ k - f) (hhigh : k - f ≤ 970) : Capped (k - f + 1) (x / y) := by
  refine capped_pack (by omega) (by omega) ?_
  rw [unpack_eq y, hy, unpacked_finite f hn]
  rcases hx.unpack_cases with ⟨s, h⟩ | ⟨s, m, e, hm, h, hlt, he⟩ <;> rw [h]
  · trivial
  · have hquot : ∀ shift : ℕ, (m <<< shift / n).log2 ≤ 52 + shift := by
      intro shift
      refine log2_le_of_lt ?_
      calc m <<< shift / n ≤ m <<< shift := Nat.div_le_self _ _
        _ = m * 2 ^ shift := Nat.shiftLeft_eq _ _
        _ < 2 ^ 53 * 2 ^ shift := by gcongr
        _ = 2 ^ (52 + shift + 1) := by ring
    refine capped_roundWithAccuracy hlow ?_ ?_ _ _
    · omega
    · -- whatever the quotient is shifted to
      generalize Format.binary64.targetExponent _ = t
      have := hquot (e - f - min (e - f) t).toNat
      omega

lemma Capped.mul (hx : Capped k x) (hy : decode y = .finite neg n f) (hn : 0 < n)
    (hlow : -1074 ≤ k + f + 53) (hhigh : k + f + 53 ≤ 970) : Capped (k + f + 53 + 1) (x * y) := by
  refine capped_pack (by omega) (by omega) ?_
  rw [unpack_eq y, hy, unpacked_finite f hn]
  rcases hx.unpack_cases with ⟨s, h⟩ | ⟨s, m, e, hm, h, hlt, he⟩ <;> rw [h]
  · trivial
  · have hprod : (m * n).log2 ≤ 105 := log2_le_of_lt <|
      calc m * n < 2 ^ 53 * 2 ^ 53 := Nat.mul_lt_mul'' hlt (lt_of_decode hy)
        _ = 2 ^ (105 + 1) := by norm_num
    refine capped_roundWithAccuracy hlow ?_ ?_ _ _
    · omega
    · omega

end operations

/-! ### Remainders -/

section remainder

variable {k f : ℤ} {x y : Float} {neg : Bool} {n num den : ℕ}

lemma roundDiv_le (tie : Tie) (num den : ℕ) : roundDiv tie num den ≤ num / den + 1 := by
  cases tie <;> simp only [roundDiv] <;> split_ifs <;> omega

/-- Rounding may carry into the next exponent. -/
lemma magnitude_le (hlow : -1074 ≤ k) (hden : 0 < den) (h : (num : ℚ) / den < 2 ^ (k + 53)) :
    magnitude num den ≤ (k + 1076).toNat * lead := by
  rcases Nat.eq_zero_or_pos num with rfl | hnum
  · simp [magnitude]
  · obtain ⟨hleast, hfit, hfull⟩ := exponentOf_spec hnum hden
    have hle : exponentOf num den ≤ k := by
      rcases hfull with hfull | hfull
      · omega
      · have := (zpow_lt_zpow_iff_right₀ one_lt_two).mp (hfull.trans_lt h)
        omega
    have hquot : num <<< (-exponentOf num den).toNat / (den <<< (exponentOf num den).toNat) <
        2 * lead := by
      rw [natDiv_lt_iff (shiftLeft_pos hden _), cast_shift_div, div_lt_iff₀ (by positivity)]
      push_cast
      rwa [two_lead_mul_zpow]
    have hround := roundDiv_le .even (num <<< (-exponentOf num den).toNat)
      (den <<< (exponentOf num den).toNat)
    rw [magnitude, if_neg hnum.ne']
    refine (min_le_left _ _).trans ?_
    have hexp : (exponentOf num den + 1074).toNat + 2 ≤ (k + 1076).toNat := by omega
    calc (exponentOf num den + 1074).toNat * lead + roundDiv .even
          (num <<< (-exponentOf num den).toNat) (den <<< (exponentOf num den).toNat)
        ≤ ((exponentOf num den + 1074).toNat + 2) * lead := by
          rw [add_mul]
          omega
      _ ≤ (k + 1076).toNat * lead := Nat.mul_le_mul_right _ hexp

lemma decode_ofBits_of_fields {b : UInt64} {exponent fraction : ℕ} (hE : exponent < 2047)
    (hf : fraction < lead) (hb : b.toNat = fieldBits neg exponent fraction) :
    decode (Float.ofBits b) = ofFields neg exponent fraction := by
  obtain ⟨m, e, hfields⟩ : ∃ m e, ofFields neg exponent fraction = .finite neg m e := by
    rw [ofFields, if_neg hE.ne]
    split_ifs
    · exact ⟨_, _, rfl⟩
    · exact ⟨_, _, rfl⟩
  obtain ⟨hc, -, hbits⟩ := canonical_of_fields (by omega) hf hfields
  rw [hfields]
  exact decode_ofBits hc (hb.trans hbits)

lemma capped_ofRatio (hlow : -1074 ≤ k) (hhigh : k ≤ 970) (hden : 0 < den)
    (h : (num : ℚ) / den < 2 ^ (k + 53)) : Capped (k + 1) (ofRatio neg num den) := by
  have hle := magnitude_le hlow hden h
  have hE : magnitude num den / lead ≤ (k + 1076).toNat :=
    Nat.div_le_of_le_mul (by rwa [mul_comm])
  have hf : magnitude num den % lead < lead := Nat.mod_lt _ (by decide)
  have hfields : magnitude num den + signBits neg =
      fieldBits neg (magnitude num den / lead) (magnitude num den % lead) := by
    have := Nat.div_add_mod' (magnitude num den) lead
    rw [fieldBits]
    omega
  have hlt : magnitude num den + signBits neg < 18446744073709551616 := by
    rw [hfields]
    exact fieldBits_lt (by omega) hf
  have hdecode : decode (ofRatio neg num den) =
      ofFields neg (magnitude num den / lead) (magnitude num den % lead) :=
    decode_ofBits_of_fields (by omega) hf ((UInt64.toNat_ofNat_of_lt' hlt).trans hfields)
  rw [Capped, hdecode]
  exact capped_ofFields (by omega) (by omega) (by omega)

/-- **A remainder is smaller than what it is the remainder by.** -/
theorem capped_rem (hx : x.isFinite) (hy : decode y = .finite neg n f) (hn : 0 < n)
    (hhigh : f ≤ 970) : Capped (f + 1) (rem x y) := by
  obtain ⟨s, m, e, hx⟩ := isFinite_iff.mp hx
  have hc := (decode_eq_finite_iff.mp hy).1
  rw [rem, hx, hy]
  dsimp only
  rw [if_neg hn.ne']
  obtain ⟨k, hk⟩ : ∃ k, k = min e f := ⟨_, rfl⟩
  rw [← hk]
  obtain ⟨r, hr⟩ : ∃ r, r = (m <<< (e - k).toNat) % (n <<< (f - k).toNat) := ⟨_, rfl⟩
  rw [← hr]
  have hmod : r < n * 2 ^ (f - k).toNat := by
    rw [hr, ← Nat.shiftLeft_eq]
    exact Nat.mod_lt _ (shiftLeft_pos hn _)
  have hmod : (r : ℚ) < n * 2 ^ (f - k).toNat := by exact_mod_cast hmod
  have hsplit : (2 : ℚ) ^ (f - k).toNat * 2 ^ k = 2 ^ f := by
    rw [← zpow_natCast, ← zpow_add₀ two_ne_zero]
    congr 1
    omega
  have hn53 : (n : ℚ) < 2 ^ 53 := by exact_mod_cast lt_of_decode hy
  refine capped_ofRatio hc.low hhigh (shiftLeft_pos one_pos _) ?_
  calc ((r <<< k.toNat : ℕ) : ℚ) / (1 <<< (-k).toNat : ℕ)
      = r * 2 ^ k := by
        have := cast_shift_div r 1 (-k)
        rw [neg_neg] at this
        rw [this, zpow_neg, div_inv_eq_mul, Nat.cast_one, div_one]
    _ < n * 2 ^ (f - k).toNat * 2 ^ k := by gcongr
    _ = n * 2 ^ f := by rw [mul_assoc, hsplit]
    _ < 2 ^ 53 * 2 ^ f := by gcongr
    _ = 2 ^ (f + 53) := by
      rw [zpow_add₀ two_ne_zero, mul_comm]
      rfl

/-- There is no remainder of what is not finite. -/
lemma rem_of_not_isFinite (hx : ¬ x.isFinite) (y : Float) : rem x y = 0.0 / 0.0 := by
  rw [isFinite_iff] at hx
  unfold rem
  cases hdecode : decode x with
  | nan => rfl
  | inf s => rfl
  | finite s m e => exact absurd ⟨s, m, e, hdecode⟩ hx

end remainder

end QCircuit.Binary64

namespace QCircuit.Angle

open Binary64

variable {x : Float}

/-- **The degrees of finite radians are finite.** -/
theorem isFinite_toDegrees (hx : x.isFinite) : (toDegrees x).isFinite := by
  have hperiod : decode period = .finite false 7074237752028440 (-49) := by decide
  have hpi : decode pi = .finite false 7074237752028440 (-51) := by decide
  have hturn : decode 180.0 = .finite false 6333186975989760 (-45) := by decide
  have hrem : Capped (-48) (rem x period) := capped_rem hx hperiod (by decide) (by decide)
  have hdiv : Capped 4 (rem x period / pi) := hrem.div hpi (by decide) (by decide) (by decide)
  have hmul : Capped 13 (toDegrees x) := hdiv.mul hturn (by decide) (by decide) (by decide)
  exact hmul.isFinite

/-- All others are not a number. -/
theorem isNaN_toDegrees (hx : ¬ x.isFinite) : (toDegrees x).isNaN := by
  rw [toDegrees, rem_of_not_isFinite hx]
  decide

end QCircuit.Angle
