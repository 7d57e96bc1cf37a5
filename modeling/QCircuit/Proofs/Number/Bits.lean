import Mathlib
import QCircuit.Binary64

/-!
The bits of a double.

The bits of a finite double give a significand and an exponent in one form only, and determine the
double. Packing and unpacking go through the same three fields, so what a double is decoded as is
what its operations compute with.
-/

namespace QCircuit.Binary64

open Float.Model

/-! ### Fields -/

def signBits (neg : Bool) : Nat := if neg then 9223372036854775808 else 0

/-- The bits with this sign, exponent field and fraction field. -/
def fieldBits (neg : Bool) (exponent fraction : Nat) : Nat :=
  signBits neg + exponent * lead + fraction

/-- What the three fields of a double stand for. -/
def ofFields (neg : Bool) (exponent fraction : Nat) : Value :=
  if exponent = 2047 then (if fraction = 0 then .inf neg else .nan)
  else if exponent = 0 then .finite neg fraction (-1074)
  else .finite neg (lead + fraction) ((exponent : Int) - 1075)

lemma exists_fieldBits {b : Nat} (hb : b < 18446744073709551616) :
    ∃ neg exponent fraction, exponent < 2048 ∧ fraction < lead ∧
      b = fieldBits neg exponent fraction := by
  refine ⟨decide (9223372036854775808 ≤ b), b / 4503599627370496 % 2048, b % 4503599627370496,
    Nat.mod_lt _ (by decide), Nat.mod_lt _ (by decide), ?_⟩
  simp only [fieldBits, signBits, lead, decide_eq_true_eq]
  split_ifs <;> omega

section fields

variable {neg : Bool} {exponent fraction : Nat}

lemma fieldBits_lt (hE : exponent < 2048) (hf : fraction < lead) :
    fieldBits neg exponent fraction < 18446744073709551616 := by
  cases neg <;> simp [fieldBits, signBits, lead] at * <;> omega

lemma fieldBits_mod (hf : fraction < lead) :
    fieldBits neg exponent fraction % lead = fraction := by
  cases neg <;> simp [fieldBits, signBits, lead] at * <;> omega

lemma fieldBits_div (hf : fraction < lead) :
    fieldBits neg exponent fraction / lead = (if neg then 2048 else 0) + exponent := by
  cases neg <;> simp [fieldBits, signBits, lead] at * <;> omega

lemma fieldBits_div_mod (hE : exponent < 2048) (hf : fraction < lead) :
    fieldBits neg exponent fraction / lead % 2048 = exponent := by
  rw [fieldBits_div hf]
  cases neg <;> simp <;> omega

lemma decide_le_fieldBits (hE : exponent < 2048) (hf : fraction < lead) :
    decide (9223372036854775808 ≤ fieldBits neg exponent fraction) = neg := by
  cases neg <;> simp [fieldBits, signBits, lead] at * <;> omega

end fields

lemma decode_of_fields {x : Float} {neg : Bool} {exponent fraction : Nat} (hE : exponent < 2048)
    (hf : fraction < lead) (hx : x.toBits.toNat = fieldBits neg exponent fraction) :
    decode x = ofFields neg exponent fraction := by
  simp only [decode, hx, fieldBits_mod hf, fieldBits_div_mod hE hf, decide_le_fieldBits hE hf,
    ofFields]

/-! ### Packing -/

def signOf (neg : Bool) : UnpackedFloat.Sign := if neg then .negative else .positive

/-- The unpacked form of what bits stand for. -/
def Value.unpacked : Value → UnpackedFloat
  | .nan => .notANumber
  | .inf neg => .infinity (signOf neg)
  | .finite neg m e =>
    if h : m = 0 then .zero (signOf neg) else .finite (signOf neg) m e (Nat.pos_of_ne_zero h)

lemma toNat_unpackMantissa (b : BitVec 64) :
    (@UnpackedFloat.unpackMantissa .binary64 b).toNat = b.toNat % lead := by
  simp [UnpackedFloat.unpackMantissa, lead]

lemma toNat_unpackExponent (b : BitVec 64) :
    (@UnpackedFloat.unpackExponent .binary64 b).toNat = b.toNat / lead % 2048 := by
  simp [UnpackedFloat.unpackExponent, lead, Nat.shiftRight_eq_div_pow]

lemma toNat_unpackSign (b : BitVec 64) :
    (@UnpackedFloat.unpackSign .binary64 b).toNat = b.toNat / lead / 2048 := by
  simp [UnpackedFloat.unpackSign, lead, Nat.shiftRight_eq_div_pow]
  omega

lemma exponentBias_eq : Format.binary64.exponentBias = 1023 := rfl

lemma unpack_of_fields {b : BitVec 64} {neg : Bool} {exponent fraction : Nat}
    (hE : exponent < 2048) (hf : fraction < lead)
    (hb : b.toNat = fieldBits neg exponent fraction) :
    UnpackedFloat.unpack Format.binary64 b = (ofFields neg exponent fraction).unpacked := by
  have hm : (@UnpackedFloat.unpackMantissa .binary64 b).toNat = fraction := by
    rw [toNat_unpackMantissa, hb, fieldBits_mod hf]
  have he : (@UnpackedFloat.unpackExponent .binary64 b).toNat = exponent := by
    rw [toNat_unpackExponent, hb, fieldBits_div_mod hE hf]
  have hs : UnpackedFloat.Sign.ofBitVec (@UnpackedFloat.unpackSign .binary64 b) =
      signOf neg := by
    have h := toNat_unpackSign b
    rw [hb, fieldBits_div hf] at h
    cases neg <;> simp [UnpackedFloat.Sign.ofBitVec, signOf, ← BitVec.toNat_inj] at h ⊢ <;> omega
  have hlead : (1#1 ++ @UnpackedFloat.unpackMantissa .binary64 b).toNat =
      lead + fraction := by
    rw [BitVec.toNat_append, hm]
    exact (Nat.shiftLeft_add_eq_or_of_lt hf 1).symm
  have hm0 : @UnpackedFloat.unpackMantissa .binary64 b = 0#_ ↔ fraction = 0 := by
    rw [← BitVec.toNat_inj, hm]
    simp
  have he0 : @UnpackedFloat.unpackExponent .binary64 b = 0#_ ↔ exponent = 0 := by
    rw [← BitVec.toNat_inj, he]
    simp
  have he1 : @UnpackedFloat.unpackExponent .binary64 b = -1#_ ↔
      exponent = 2047 := by
    rw [← BitVec.toNat_inj, he]
    simp
  unfold UnpackedFloat.unpack ofFields
  simp only [hm, he, hs, hlead, hm0, he0, he1]
  split_ifs <;> simp [Value.unpacked, exponentBias_eq, lead, *]

lemma toNat_packComponents (neg : Bool) (exponent : BitVec 11) (fraction : BitVec 52) :
    (UnpackedFloat.packComponents Format.binary64 (signOf neg) exponent fraction).toNat =
      fieldBits neg exponent.toNat fraction.toNat := by
  rw [UnpackedFloat.packComponents, BitVec.toNat_append, BitVec.toNat_append,
    ← Nat.shiftLeft_add_eq_or_of_lt exponent.isLt, ← Nat.shiftLeft_add_eq_or_of_lt fraction.isLt]
  cases neg <;> simp [signOf, UnpackedFloat.Sign.toBitVec, fieldBits, signBits, lead,
    Nat.shiftLeft_eq]
  omega

/-! ### Canonical form -/

/-- The form of the significand and the exponent that the bits of a finite double give. -/
structure Canonical (m : Nat) (e : Int) : Prop where
  lt : m < 2 * lead
  low : -1074 ≤ e
  high : e ≤ 971
  normal : lead ≤ m ∨ e = -1074

/-- The bits of `m · 2 ^ e` in canonical form. -/
def bitsOf (m : Nat) (e : Int) : Nat := (e + 1074).toNat * lead + m

lemma Canonical.bitsOf_lt {m : Nat} {e : Int} (h : Canonical m e) : bitsOf m e < 2047 * lead := by
  obtain ⟨hlt, hlow, hhigh, -⟩ := h
  simp only [bitsOf, lead] at *
  omega

/-- The fields of `m · 2 ^ e` in canonical form. -/
lemma Canonical.exists_fields {m : Nat} {e : Int} (h : Canonical m e) (neg : Bool) :
    ∃ exponent fraction, exponent < 2047 ∧ fraction < lead ∧
      ofFields neg exponent fraction = .finite neg m e ∧
      signBits neg + bitsOf m e = fieldBits neg exponent fraction := by
  obtain ⟨hlt, hlow, hhigh, hnormal⟩ := h
  obtain ⟨k, rfl⟩ : ∃ k : Nat, e = (k : Int) - 1074 := ⟨(e + 1074).toNat, by omega⟩
  by_cases hm : lead ≤ m
  · refine ⟨k + 1, m - lead, by omega, by omega, ?_, ?_⟩
    · rw [ofFields, if_neg (by omega), if_neg (by omega)]
      simp only [Value.finite.injEq, true_and]
      omega
    · simp only [bitsOf, fieldBits, lead] at *
      omega
  · have hk : k = 0 := by omega
    subst hk
    exact ⟨0, m, by omega, by omega, rfl, by simp [bitsOf, fieldBits]⟩

lemma canonical_of_fields {neg neg' : Bool} {exponent fraction m : Nat} {e : Int}
    (hE : exponent < 2048) (hf : fraction < lead)
    (h : ofFields neg exponent fraction = .finite neg' m e) :
    Canonical m e ∧ neg' = neg ∧ fieldBits neg exponent fraction = signBits neg + bitsOf m e := by
  unfold ofFields at h
  split_ifs at h with _ _ hzero
  · obtain ⟨rfl, rfl, rfl⟩ := Value.finite.inj h
    exact ⟨⟨by omega, le_rfl, by decide, .inr rfl⟩, rfl, by simp [fieldBits, bitsOf, hzero]⟩
  · obtain ⟨rfl, rfl, rfl⟩ := Value.finite.inj h
    refine ⟨⟨by omega, by omega, by omega, .inl (by omega)⟩, rfl, ?_⟩
    simp only [bitsOf, fieldBits, lead]
    omega

/-- **Decoding**: a finite double has a significand and an exponent in canonical form, and these
and the sign are its bits. -/
theorem decode_eq_finite_iff {x : Float} {neg : Bool} {m : Nat} {e : Int} :
    decode x = .finite neg m e ↔
      Canonical m e ∧ x.toBits.toNat = signBits neg + bitsOf m e := by
  obtain ⟨neg', exponent, fraction, hE, hf, hx⟩ := exists_fieldBits x.toBits.toNat_lt
  constructor
  · intro h
    rw [decode_of_fields hE hf hx] at h
    obtain ⟨hc, rfl, hbits⟩ := canonical_of_fields hE hf h
    exact ⟨hc, hx.trans hbits⟩
  · rintro ⟨hc, hbits⟩
    obtain ⟨exponent, fraction, hE, hf, hfields, hbits'⟩ := hc.exists_fields neg
    rw [decode_of_fields (by omega) hf (hbits.trans hbits'), hfields]

lemma unpack_eq (x : Float) : x.toModel.unpack = (decode x).unpacked := by
  obtain ⟨neg, exponent, fraction, hE, hf, hx⟩ := exists_fieldBits x.toBits.toNat_lt
  rw [decode_of_fields hE hf hx]
  exact unpack_of_fields hE hf hx

lemma isFinite_iff {x : Float} : x.isFinite = true ↔ ∃ neg m e, decode x = .finite neg m e := by
  have h : x.isFinite = (decode x).unpacked.isFinite := by
    rw [← unpack_eq]
    rfl
  rw [h]
  cases decode x with
  | nan => simp [Value.unpacked, UnpackedFloat.isFinite]
  | inf neg => simp [Value.unpacked, UnpackedFloat.isFinite]
  | finite neg m e =>
    simp only [Value.unpacked]
    split <;> simp [UnpackedFloat.isFinite]

/-! ### From bits to doubles and back -/

lemma log2_eq_of_lead_le {m : Nat} (hlow : lead ≤ m) (hhigh : m < 2 * lead) : m.log2 = 52 := by
  rw [Nat.log2_eq_iff (by simp only [lead] at hlow; omega)]
  simp only [lead] at hlow hhigh
  omega

lemma log2_le_of_lt {m k : Nat} (h : m < 2 ^ (k + 1)) : m.log2 ≤ k := by
  rcases Nat.eq_zero_or_pos m with rfl | hm
  · simp
  · exact Nat.lt_succ_iff.mp ((Nat.log2_lt hm.ne').mpr h)

lemma log2_lt_of_lt_lead {m : Nat} (h : m < lead) : m.log2 < 52 :=
  Nat.lt_succ_iff.mpr (log2_le_of_lt h)

lemma toNat_pack_finite {m : Nat} {e : Int} (hc : Canonical m e) (neg : Bool) :
    (UnpackedFloat.pack Format.binary64 (Value.finite neg m e).unpacked).toNat =
      signBits neg + bitsOf m e := by
  obtain ⟨hlt, hlow, hhigh, hnormal⟩ := hc
  simp only [Value.unpacked]
  split
  · next hm =>
    subst hm
    obtain rfl : e = -1074 := by simpa [lead] using hnormal
    exact toNat_packComponents neg 0 0
  · next hm =>
    have hbias : (e + (1023 : Nat) + (52 : Nat)).toNat = (e + 1075).toNat := by omega
    simp only [UnpackedFloat.pack, exponentBias_eq, Format.mantissaBits, hbias]
    rw [if_neg (by omega)]
    split
    · next hlog =>
      have hm : lead ≤ m := by
        by_contra hm
        have := log2_lt_of_lt_lead (not_le.mp hm)
        omega
      rw [toNat_packComponents]
      simp only [fieldBits, bitsOf, BitVec.toNat_ofNat, lead] at *
      omega
    · next hlog =>
      have hm : m < lead := by
        by_contra hm
        have := log2_eq_of_lead_le (not_lt.mp hm) hlt
        omega
      obtain rfl : e = -1074 := by omega
      rw [toNat_packComponents]
      simp only [fieldBits, bitsOf, BitVec.toNat_ofNat, lead] at *
      omega

lemma toBits_ofBits_finite {m : Nat} {e : Int} (hc : Canonical m e) {neg : Bool} {b : UInt64}
    (hb : b.toNat = signBits neg + bitsOf m e) : (Float.ofBits b).toBits = b := by
  obtain ⟨exponent, fraction, hE, hf, hfields, hbits⟩ := hc.exists_fields neg
  have hunpack : UnpackedFloat.unpack Format.binary64 b.toBitVec = (Value.finite neg m e).unpacked := by
    rw [unpack_of_fields (by omega) hf (hb.trans hbits), hfields]
  rw [← UInt64.toNat_inj]
  calc (Float.ofBits b).toBits.toNat
      = (UnpackedFloat.pack Format.binary64
          (UnpackedFloat.unpack Format.binary64 b.toBitVec)).toNat := rfl
    _ = b.toNat := by rw [hunpack, toNat_pack_finite hc, hb]

lemma decode_ofBits {m : Nat} {e : Int} (hc : Canonical m e) {neg : Bool} {b : UInt64}
    (hb : b.toNat = signBits neg + bitsOf m e) : decode (Float.ofBits b) = .finite neg m e := by
  rw [decode_eq_finite_iff, toBits_ofBits_finite hc hb]
  exact ⟨hc, hb⟩

lemma toBits_inj {x y : Float} (h : x.toBits = y.toBits) : x = y := by
  cases x with
  | ofModel a =>
    cases y with
    | ofModel b =>
      cases a
      cases b
      simp_all [Float.toBits]

/-- A finite double is what its decoded form says. -/
theorem eq_of_decode {x y : Float} {neg : Bool} {m : Nat} {e : Int}
    (hx : decode x = .finite neg m e) (hy : decode y = .finite neg m e) : x = y := by
  apply toBits_inj
  rw [← UInt64.toNat_inj, (decode_eq_finite_iff.mp hx).2, (decode_eq_finite_iff.mp hy).2]

end QCircuit.Binary64
