import Mathlib.Tactic
import QCircuit.Proofs.Number.Range

/-!
Products of doubles and their whole parts.

The significand of an exact product is cut off at the place that 53 bits leave, and may be one more
there. So as long as this place is behind the point, the rounded product has reached every natural
number that the exact one has, and it exceeds the exact one by a part in `2 ^ 52` at most.
-/

namespace QCircuit.Binary64

open Float.Model UnpackedFloat

/-! ### Rounding a product -/

section rounding

variable {m : ℕ} {e : ℤ}

/-- The exponent that leaves `m · 2 ^ e` its 53 bits, or the least exponent there is. -/
def place (m : ℕ) (e : ℤ) : ℤ := max (m.log2 + 1 + e - 53) (-1074)

lemma le_roundedMantissa (em : ExtendedMantissa) : em.mantissa ≤ em.roundedMantissa := by
  unfold ExtendedMantissa.roundedMantissa Accuracy.roundToNearestEven
  split <;> omega

lemma shiftToTargetExponent_eq (m : ℕ) (e : ℤ) :
    shiftToTargetExponent Format.binary64 m e .exact =
      (ExtendedMantissa.ofMantissaAndAccuracy m .exact >>> (place m e - e).toNat,
        e + (place m e - e).toNat) := rfl

/-- The cut leaves 53 bits at most, and fewer at the least exponent only. -/
lemma cut_bounds (he : e ≤ place m e) :
    m / 2 ^ (place m e - e).toNat < 2 * lead ∧
      (lead ≤ m / 2 ^ (place m e - e).toNat ∨ place m e = -1074) := by
  have hlog := log2_div_two_pow m (place m e - e).toNat
  unfold place at *
  constructor
  · have hlt := Nat.lt_log2_self (n := m / 2 ^ (max (m.log2 + 1 + e - 53) (-1074) - e).toNat)
    refine hlt.trans_le ?_
    calc 2 ^ ((m / 2 ^ (max (m.log2 + 1 + e - 53) (-1074) - e).toNat).log2 + 1) ≤ 2 ^ 53 :=
          Nat.pow_le_pow_right (by decide) (by omega)
      _ = 2 * lead := by norm_num [lead]
  · rcases max_choice ((m.log2 : ℤ) + 1 + e - 53) (-1074) with hmax | hmax
    · rw [hmax] at hlog ⊢
      have h52 : (m / 2 ^ ((m.log2 : ℤ) + 1 + e - 53 - e).toNat).log2 = 52 := by omega
      have hne : m / 2 ^ ((m.log2 : ℤ) + 1 + e - 53 - e).toNat ≠ 0 := fun hc => by simp [hc] at h52
      have hle := Nat.log2_self_le hne
      rw [h52] at hle
      exact .inl hle
    · exact .inr hmax

/-- A canonical significand is in its place. -/
lemma Canonical.place_eq (hc : Canonical m e) : place m e = e := by
  have hlow := hc.low
  have hlog : m.log2 ≤ 52 := log2_le_of_lt (by simpa [lead] using hc.lt)
  unfold place
  rcases hc.normal with hm | rfl
  · have := log2_eq_of_lead_le hm hc.lt
    omega
  · omega

/-- A carry into a new bit moves the place by one. -/
lemma exists_carry {q : ℕ} {t : ℤ} (hq : q ≤ 2 * lead) (hlow : -1074 ≤ t) (hhigh : t ≤ 900)
    (hnormal : lead ≤ q ∨ t = -1074) : ∃ n : ℕ, n = (place q t - t).toNat ∧
      Canonical (q / 2 ^ n) (t + n) ∧ ((q / 2 ^ n : ℕ) : ℚ) * 2 ^ (t + n) = q * 2 ^ t := by
  refine ⟨_, rfl, ?_⟩
  rcases hq.lt_or_eq with hlt | rfl
  · have hc : Canonical q t := ⟨hlt, hlow, by omega, hnormal⟩
    simp only [hc.place_eq, sub_self, Int.toNat_zero, pow_zero, Nat.div_one, Nat.cast_zero,
      add_zero, and_true]
    exact hc
  · have hlog : (2 * lead).log2 = 53 := by decide
    have hone : (place (2 * lead) t - t).toNat = 1 := by
      unfold place
      omega
    simp only [hone, pow_one, Nat.mul_div_cancel_left lead two_pos, Nat.cast_one]
    refine ⟨⟨by decide, by omega, by omega, .inl le_rfl⟩, ?_⟩
    rw [zpow_add₀ two_ne_zero, zpow_one]
    push_cast
    ring

/-- **What rounding gives**: cut off at its place, or one more. -/
theorem exists_roundWithAccuracy (he : e ≤ place m e) (hplace : place m e ≤ 900) (neg : Bool) :
    ∃ r k, Canonical r k ∧
      roundWithAccuracy Format.binary64 (signOf neg) m e .exact = (Value.finite neg r k).unpacked ∧
        ∃ q : ℕ, (r : ℚ) * 2 ^ k = q * 2 ^ place m e ∧
          m / 2 ^ (place m e - e).toNat ≤ q ∧ q ≤ m / 2 ^ (place m e - e).toNat + 1 := by
  obtain ⟨em, hem⟩ : ∃ em, em =
    ExtendedMantissa.ofMantissaAndAccuracy m .exact >>> (place m e - e).toNat := ⟨_, rfl⟩
  have hmantissa : em.mantissa = m / 2 ^ (place m e - e).toNat := by
    rw [hem, mantissa_shiftRight, mantissa_ofMantissaAndAccuracy]
  have hlow := le_roundedMantissa em
  have hhigh := roundedMantissa_le em
  rw [hmantissa] at hlow hhigh
  obtain ⟨hlt, hnormal⟩ := cut_bounds he
  have hfirst : e + (place m e - e).toNat = place m e := by omega
  have hleast : -1074 ≤ place m e := le_max_right _ _
  obtain ⟨n, hn, hcanonical, hvalue⟩ := exists_carry (q := em.roundedMantissa) (by omega)
    hleast hplace (hnormal.imp_left hlow.trans')
  refine ⟨_, _, hcanonical, ?_, _, hvalue, hlow, hhigh⟩
  rw [roundWithAccuracy, shiftToTargetExponent_eq, ← hem, hfirst]
  simp only [shiftToTargetExponent_eq, ← hn, mantissa_shiftRight, mantissa_ofMantissaAndAccuracy]
  rfl

/-- Packing keeps a canonical form. -/
lemma decode_pack {r : ℕ} {k : ℤ} (hc : Canonical r k) (neg : Bool) :
    decode (.ofModel (Float.Model.pack (Value.finite neg r k).unpacked)) = .finite neg r k :=
  decode_eq_finite_iff.mpr ⟨hc, toNat_pack_finite hc neg⟩

end rounding

/-! ### Rounded numbers -/

/-- How a rounded number that is not negative stands to the exact one. -/
structure Rounds (x y : ℚ) : Prop where
  zero : x = 0 → y = 0
  whole (n : ℕ) : n ≤ x → n ≤ y
  close : 1 ≤ y → y ≤ x * (1 + 1 / lead)

/-- Below `2 ^ 53` the place is behind the point. -/
lemma place_nonpos {m : ℕ} {e : ℤ} (hm : 0 < m) (hlt : (m : ℚ) * 2 ^ e < 2 ^ 53) :
    place m e ≤ 0 := by
  have hlog : ((2 : ℚ) ^ m.log2 : ℚ) ≤ m := by exact_mod_cast Nat.log2_self_le hm.ne'
  have hlt : (2 : ℚ) ^ ((m.log2 : ℤ) + e) < 2 ^ (53 : ℤ) :=
    calc (2 : ℚ) ^ ((m.log2 : ℤ) + e) = 2 ^ m.log2 * 2 ^ e := by
          rw [zpow_add₀ two_ne_zero, zpow_natCast]
      _ ≤ m * 2 ^ e := by gcongr
      _ < 2 ^ 53 := hlt
  have := (zpow_lt_zpow_iff_right₀ one_lt_two).mp hlt
  unfold place
  omega

lemma rounds_of_cut {m q : ℕ} {e : ℤ} (hm : 0 < m) (he : e ≤ place m e)
    (hlt : (m : ℚ) * 2 ^ e < 2 ^ 53) (hlow : m / 2 ^ (place m e - e).toNat ≤ q)
    (hhigh : q ≤ m / 2 ^ (place m e - e).toNat + 1) :
    Rounds (m * 2 ^ e) (q * 2 ^ place m e) := by
  have hnonpos := place_nonpos hm hlt
  obtain ⟨-, hnormal⟩ := cut_bounds he
  obtain ⟨t, ht⟩ : ∃ t : ℕ, place m e = -t := ⟨(-place m e).toNat, by omega⟩
  obtain ⟨n, hn⟩ : ∃ n : ℕ, n = (place m e - e).toNat := ⟨_, rfl⟩
  obtain rfl : e = -(t + n : ℕ) := by omega
  rw [← hn] at hlow hhigh hnormal
  rw [ht] at hnormal ⊢
  have hexact : (m : ℚ) * 2 ^ (-((t + n : ℕ) : ℤ)) = m / 2 ^ n / 2 ^ t := by
    rw [zpow_neg, zpow_natCast, pow_add, ← div_eq_mul_inv, div_div, mul_comm]
  have hrounded : (q : ℚ) * 2 ^ (-(t : ℤ)) = q / 2 ^ t := by
    rw [zpow_neg, zpow_natCast, div_eq_mul_inv]
  have hcut : ((m / 2 ^ n : ℕ) : ℚ) ≤ m / 2 ^ n := by
    have := Nat.cast_div_le (α := ℚ) (m := m) (n := 2 ^ n)
    push_cast at this
    exact this
  rw [hexact, hrounded]
  refine ⟨fun hzero => ?_, fun k hk => ?_, fun hone => ?_⟩
  · have hpos : (0 : ℚ) < m / 2 ^ n / 2 ^ t := by positivity
    exact absurd hzero hpos.ne'
  · rw [le_div_iff₀ (by positivity)] at hk ⊢
    have hk : k * 2 ^ t ≤ m / 2 ^ n := by
      rw [Nat.le_div_iff_mul_le (by positivity)]
      rw [le_div_iff₀ (by positivity)] at hk
      exact_mod_cast hk
    exact_mod_cast hk.trans hlow
  · have hfull : lead ≤ m / 2 ^ n := by
      refine hnormal.elim id fun hleast => ?_
      rw [le_div_iff₀ (by positivity), one_mul] at hone
      have hbig : 2 ^ t ≤ q := by exact_mod_cast hone
      have hsmall : 2 ^ 53 ≤ 2 ^ t := Nat.pow_le_pow_right two_pos (by omega)
      have hlead : 2 ^ 53 = 2 * lead := by norm_num [lead]
      omega
    have hpart : (1 : ℚ) ≤ (m / 2 ^ n : ℕ) * (1 / lead) := by
      rw [mul_one_div, one_le_div (by norm_num [lead])]
      exact_mod_cast hfull
    have hq : (q : ℚ) ≤ (m / 2 ^ n : ℕ) + 1 := by exact_mod_cast hhigh
    rw [div_mul_eq_mul_div]
    gcongr
    calc (q : ℚ) ≤ (m / 2 ^ n : ℕ) * (1 + 1 / lead) := by linarith
      _ ≤ m / 2 ^ n * (1 + 1 / lead) := by gcongr

/-! ### Doubles that are not negative -/

/-- The exact number of a finite double; what is not finite counts for nothing. -/
def value (x : Float) : ℚ :=
  match decode x with
  | .finite s m e => (if s then -(m : ℚ) else m) * 2 ^ e
  | _ => 0

/-- A finite double that is not negative, with its exact number. -/
structure Stands (x : Float) (v : ℚ) : Prop where
  unpacked : (v = 0 ∧ ∃ s, x.toModel.unpack = .zero s) ∨
    ∃ m e hm, Canonical m e ∧ x.toModel.unpack = .finite .positive m e hm ∧ v = m * 2 ^ e

/-- Finite and not negative as an exact number. -/
lemma stands_value {x : Float} (hfinite : x.isFinite) (hx : 0 ≤ value x) : Stands x (value x) := by
  obtain ⟨neg, m, e, hdecode⟩ := isFinite_iff.mp hfinite
  have hvalue : value x = (if neg then -(m : ℚ) else m) * 2 ^ e := by rw [value, hdecode]
  have hpos : (0 : ℚ) < 2 ^ e := by positivity
  rcases Nat.eq_zero_or_pos m with rfl | hm
  · refine ⟨.inl ⟨by rw [hvalue]; simp, signOf neg, ?_⟩⟩
    rw [unpack_eq, hdecode]
    rfl
  · have hneg : neg = false := by
      by_contra hneg
      rw [hvalue, if_pos (by simpa using hneg)] at hx
      have : (0 : ℚ) < m := by exact_mod_cast hm
      nlinarith
    subst hneg
    refine ⟨.inr ⟨m, e, hm, (decode_eq_finite_iff.mp hdecode).1, ?_, hvalue⟩⟩
    rw [unpack_eq, hdecode]
    exact unpacked_finite e hm

lemma stands_pack {r : ℕ} {k : ℤ} (hc : Canonical r k) (neg : Bool) (hneg : neg = true → r = 0) :
    Stands (.ofModel (Float.Model.pack (Value.finite neg r k).unpacked)) (r * 2 ^ k) := by
  have hunpack := unpack_eq (.ofModel (Float.Model.pack (Value.finite neg r k).unpacked))
  rw [decode_pack hc] at hunpack
  rcases Nat.eq_zero_or_pos r with rfl | hr
  · exact ⟨.inl ⟨by simp, signOf neg, hunpack⟩⟩
  · obtain rfl : neg = false := by
      cases neg with
      | false => rfl
      | true => exact absurd (hneg rfl) hr.ne'
    exact ⟨.inr ⟨r, k, hr, hc, hunpack.trans (unpacked_finite k hr), rfl⟩⟩

/-- A rounded number, packed. -/
lemma exists_stands_round {m : ℕ} {e : ℤ} (hm : 0 < m) (he : e ≤ place m e)
    (hlt : (m : ℚ) * 2 ^ e < 2 ^ 53) : ∃ v, Stands (.ofModel (Float.Model.pack
      (roundWithAccuracy Format.binary64 .positive m e .exact))) v ∧ Rounds (m * 2 ^ e) v := by
  have hplace := place_nonpos hm hlt
  obtain ⟨r, k, hc, hround, q, hvalue, hlow, hhigh⟩ :=
    exists_roundWithAccuracy he (by omega) false
  refine ⟨r * 2 ^ k, ?_, hvalue ▸ rounds_of_cut hm he hlt hlow hhigh⟩
  rw [show Sign.positive = signOf false from rfl, hround]
  exact stands_pack hc false (by simp)

lemma stands_zero (s : Sign) : Stands (.ofModel (Float.Model.pack (.zero s))) 0 := by
  obtain ⟨neg, rfl⟩ := exists_signOf s
  have hc : Canonical 0 (-1074) := ⟨by decide, le_rfl, by decide, .inr rfl⟩
  have h := stands_pack hc neg fun _ => rfl
  rwa [Nat.cast_zero, zero_mul] at h

lemma rounds_zero : Rounds 0 0 :=
  ⟨fun _ => rfl, fun _ h => h, fun h => absurd h (by norm_num)⟩

/-- Two significands of which one has all its bits leave something to cut off. -/
lemma add_le_place {m n : ℕ} {e f : ℤ} (hm : 0 < m) (hn : 0 < n) (hx : Canonical m e)
    (hy : Canonical n f) : e + f ≤ place (m * n) (e + f) := by
  have hlog : ∀ {a b : ℕ}, lead ≤ a → 0 < b → 52 ≤ (a * b).log2 := fun {a b} ha hb => by
    have hlead : 0 < a := Nat.lt_of_lt_of_le (by decide) ha
    rw [Nat.le_log2 (by positivity)]
    calc 2 ^ 52 = lead * 1 := by norm_num [lead]
      _ ≤ a * b := Nat.mul_le_mul ha hb
  unfold place
  rcases hx.normal with hm' | rfl
  · have := hlog hm' hn
    omega
  · rcases hy.normal with hn' | rfl
    · have := hlog hn' hm
      rw [mul_comm] at this
      omega
    · omega

/-- **The product of two doubles.** -/
theorem Stands.mul {x y : Float} {v w : ℚ} (hx : Stands x v) (hy : Stands y w)
    (hlt : v * w < 2 ^ 53) : ∃ u, Stands (x * y) u ∧ Rounds (v * w) u := by
  have hmul : x * y = .ofModel (Float.Model.pack
      (UnpackedFloat.mul Format.binary64 x.toModel.unpack y.toModel.unpack)) := rfl
  rw [hmul]
  rcases hx.unpacked with ⟨rfl, s, hux⟩ | ⟨m, e, hm, hcm, hux, rfl⟩ <;>
    rcases hy.unpacked with ⟨rfl, s', huy⟩ | ⟨n, f, hn, hcn, huy, rfl⟩ <;> rw [hux, huy]
  · exact ⟨0, stands_zero _, by simpa using rounds_zero⟩
  · exact ⟨0, stands_zero _, by simpa using rounds_zero⟩
  · exact ⟨0, stands_zero _, by simpa using rounds_zero⟩
  · have hproduct : (m : ℚ) * 2 ^ e * (n * 2 ^ f) = (m * n : ℕ) * 2 ^ (e + f) := by
      rw [zpow_add₀ two_ne_zero]
      push_cast
      ring
    rw [hproduct] at hlt ⊢
    exact exists_stands_round (Nat.mul_pos hm hn) (add_le_place hm hn hcm hcn) hlt

/-! ### Signs and whole parts -/

lemma Stands.nonneg {x : Float} {v : ℚ} (hx : Stands x v) : 0 ≤ v := by
  rcases hx.unpacked with ⟨rfl, -⟩ | ⟨m, e, -, -, -, rfl⟩
  · exact le_rfl
  · positivity

lemma unpack_zero : (0.0 : Float).toModel.unpack = .zero .positive := by
  rw [unpack_eq, show decode 0.0 = .finite false 0 (-1074) by decide]
  rfl

lemma Stands.pos_iff {x : Float} {v : ℚ} (hx : Stands x v) : 0.0 < x ↔ 0 < v := by
  have hlt : 0.0 < x ↔ (0.0 : Float).toModel.unpack.lt x.toModel.unpack = true :=
    decide_eq_true_iff
  rw [hlt, unpack_zero]
  rcases hx.unpacked with ⟨rfl, s, hux⟩ | ⟨m, e, hm, -, hux, rfl⟩ <;> rw [hux]
  · simp [UnpackedFloat.lt, UnpackedFloat.compare]
  · exact iff_of_true rfl (by positivity)

lemma Stands.le_zero_iff {x : Float} {v : ℚ} (hx : Stands x v) : x ≤ 0.0 ↔ v = 0 := by
  have hle : x ≤ 0.0 ↔ x.toModel.unpack.le (0.0 : Float).toModel.unpack = true :=
    decide_eq_true_iff
  rw [hle, unpack_zero]
  rcases hx.unpacked with ⟨rfl, s, hux⟩ | ⟨m, e, hm, -, hux, rfl⟩ <;> rw [hux]
  · exact iff_of_true rfl rfl
  · exact iff_of_false (by simp [UnpackedFloat.le, UnpackedFloat.compare]) (by positivity)

lemma toInt_finite {m : ℕ} (e : ℤ) (hm : 0 < m) :
    (UnpackedFloat.finite .positive m e hm).toInt 0 4294967295 =
      ((m <<< e.toNat / 2 ^ (-e).toNat : ℕ) : ℤ) := by
  have hunfold : (UnpackedFloat.finite .positive m e hm).toInt 0 4294967295 =
      ((ExtendedMantissa.ofMantissaAndAccuracy (m <<< (e - 0).toNat) .exact >>>
        (0 - (e - (e - 0).toNat)).toNat).mantissa : ℤ) := rfl
  have hexponent : (0 - (e - (e - 0).toNat)).toNat = (-e).toNat := by omega
  rw [hunfold, mantissa_shiftRight, mantissa_ofMantissaAndAccuracy, hexponent, sub_zero]

/-- **The whole part of a double.** -/
theorem Stands.toUInt32 {x : Float} {v : ℚ} (hx : Stands x v) (hlt : v < 4294967296) :
    (x.toUInt32.toNat : ℚ) ≤ v ∧ v < x.toUInt32.toNat + 1 := by
  have hwhole : x.toUInt32 = UInt32.ofNatClamp (x.toModel.unpack.toInt 0 4294967295).toNat := rfl
  rw [hwhole]
  rcases hx.unpacked with ⟨rfl, s, hux⟩ | ⟨m, e, hm, -, hux, rfl⟩ <;> rw [hux]
  · have hzero : (UInt32.ofNatClamp ((UnpackedFloat.zero s).toInt 0 4294967295).toNat).toNat = 0 :=
      rfl
    rw [hzero]
    norm_num
  · obtain ⟨k, hk⟩ : ∃ k, k = m <<< e.toNat / 2 ^ (-e).toNat := ⟨_, rfl⟩
    have hexact : (m : ℚ) * 2 ^ e = (m <<< e.toNat : ℕ) / (2 ^ (-e).toNat : ℕ) := by
      rw [zpow_eq_toNat_div, Nat.shiftLeft_eq]
      push_cast
      ring
    have hpos : 0 < 2 ^ (-e).toNat := by positivity
    have hle : (k : ℚ) ≤ m * 2 ^ e := by
      rw [hexact, hk]
      exact Nat.cast_div_le
    have hgt : (m : ℚ) * 2 ^ e < k + 1 := by
      have hdiv : m <<< e.toNat / 2 ^ (-e).toNat < k + 1 := by omega
      rw [hexact]
      exact_mod_cast (natDiv_lt_iff hpos).mp hdiv
    have hsize : k < UInt32.size := by
      have : (k : ℚ) < 4294967296 := hle.trans_lt hlt
      exact_mod_cast this
    rw [toInt_finite, ← hk, Int.toNat_natCast, UInt32.toNat_ofNatClamp_of_lt hsize]
    exact ⟨hle, hgt⟩

end QCircuit.Binary64
