import Mathlib.Tactic
import QCircuit.Proofs.Number.Shortest
import QCircuit.Text

/-!
Runs of decimal digits, and a number written out in them.
-/

namespace QCircuit.Decimal

lemma isDigit_of_mem_digitsOf {n : ℕ} {c : Char} (h : c ∈ digitsOf n) : c.isDigit :=
  Nat.isDigit_of_mem_toDigits (by decide) (by decide) h

lemma digitsOf_ne_nil (n : ℕ) : digitsOf n ≠ [] := Nat.toDigits_ne_nil

lemma ofDigits_eq (ds : List Char) : ofDigits ds = Nat.ofDigitChars 10 ds 0 := rfl

@[simp] lemma ofDigits_digitsOf (n : ℕ) : ofDigits (digitsOf n) = n :=
  Nat.ofDigitChars_ten_toDigits

lemma isDigit_of_mem_zeros {n : ℕ} {c : Char} (h : c ∈ zeros n) : c.isDigit := by
  rw [List.eq_of_mem_replicate h]
  decide

lemma ofDigits_append_zeros (ds : List Char) (k : ℕ) :
    ofDigits (ds ++ zeros k) = ofDigits ds * 10 ^ k := by
  rw [ofDigits_eq, zeros, Nat.ofDigitChars_append, Nat.ofDigitChars_replicate_zero, mul_comm]
  rfl

lemma ofDigits_zeros_append (k : ℕ) (ds : List Char) : ofDigits (zeros k ++ ds) = ofDigits ds := by
  rw [ofDigits_eq, zeros, Nat.ofDigitChars_append, Nat.ofDigitChars_replicate_zero, mul_zero]
  rfl

/-- No leading zero is written. -/
lemma head_digitsOf_ne_zero {n : ℕ} (hn : n ≠ 0) : (digitsOf n).head? ≠ some '0' := by
  induction n using Nat.strongRecOn with
  | _ n ih =>
    rcases Nat.lt_or_ge n 10 with h | h
    · rw [digitsOf, Nat.toDigits_of_lt_base h]
      interval_cases n <;> simp_all
    · rw [digitsOf, Nat.toDigits_of_base_le (by decide) h,
        List.head?_append_of_ne_nil _ Nat.toDigits_ne_nil]
      exact ih (n / 10) (by omega) (by omega)

/-- The parts of a number that is written without an exponent. -/
structure Parts (d : Decimal) (whole places : List Char) : Prop where
  text : d.positional = whole ++ if places = [] then [] else '.' :: places
  whole_ne_nil : whole ≠ []
  digits : ∀ c ∈ whole ++ places, c.isDigit
  ofDigits_eq : ofDigits (whole ++ places) = d.digits * 10 ^ d.exp.toNat
  length : places.length = (-d.exp).toNat
  no_zero : d.exp < 0 → whole = ['0'] ∨ whole.head? ≠ some '0'

lemma Parts.value_eq {d : Decimal} {whole places : List Char} (h : d.Parts whole places) :
    value ⟨ofDigits (whole ++ places), 0 - places.length⟩ = d.value := by
  rw [value, value, h.ofDigits_eq, h.length, zpow_eq_toNat_div 10 d.exp, zero_sub, zpow_neg,
    zpow_natCast]
  push_cast
  ring

/-- **Writing out**: the digits before and after the point of a number. -/
theorem exists_parts (d : Decimal) : ∃ whole places, d.Parts whole places := by
  obtain ⟨ds, hds⟩ : ∃ ds, ds = digitsOf d.digits := ⟨_, rfl⟩
  have hdigits : ∀ c ∈ ds, c.isDigit := fun c hc => isDigit_of_mem_digitsOf (hds ▸ hc)
  have hne : ds ≠ [] := hds ▸ digitsOf_ne_nil _
  have hvalue : ofDigits ds = d.digits := by rw [hds, ofDigits_digitsOf]
  by_cases hzero : (-d.exp).toNat = 0
  · refine ⟨ds ++ zeros d.exp.toNat, [], ⟨?_, by simp [hne], ?_, ?_, by simp [hzero], by omega⟩⟩
    · simp [positional, hzero, hds]
    · simp only [List.append_nil, List.mem_append]
      rintro c (hc | hc)
      · exact hdigits c hc
      · exact isDigit_of_mem_zeros hc
    · rw [List.append_nil, ofDigits_append_zeros, hvalue]
  have hexp : d.exp.toNat = 0 := by omega
  by_cases hlen : (-d.exp).toNat < ds.length
  · have hdrop : ds.drop (ds.length - (-d.exp).toNat) ≠ [] := by
      simp only [ne_eq, List.drop_eq_nil_iff]
      omega
    refine ⟨ds.take (ds.length - (-d.exp).toNat), ds.drop (ds.length - (-d.exp).toNat),
      ⟨?_, ?_, ?_, ?_, ?_, fun _ => .inr ?_⟩⟩
    · simp only [positional, ← hds, if_neg hzero, if_pos hlen, if_neg hdrop]
    · simp only [ne_eq, List.take_eq_nil_iff, not_or]
      exact ⟨by omega, hne⟩
    · rwa [List.take_append_drop]
    · rw [List.take_append_drop, hvalue, hexp, pow_zero, mul_one]
    · rw [List.length_drop]
      omega
    · rw [List.head?_take, if_neg (by omega), hds]
      apply head_digitsOf_ne_zero
      intro h
      rw [hds, h] at hlen
      simp [digitsOf] at hlen
      omega
  · refine ⟨['0'], zeros ((-d.exp).toNat - ds.length) ++ ds,
      ⟨?_, by simp, ?_, ?_, ?_, fun _ => .inl rfl⟩⟩
    · simp only [positional, ← hds, if_neg hzero, if_neg hlen]
      simp [hne]
    · simp only [List.mem_append, List.mem_singleton]
      rintro c (rfl | hc | hc)
      · decide
      · exact isDigit_of_mem_zeros hc
      · exact hdigits c hc
    · rw [show ['0'] = zeros 1 from rfl, ofDigits_zeros_append, ofDigits_zeros_append, hvalue, hexp,
        pow_zero, mul_one]
    · simp only [List.length_append, zeros, List.length_replicate]
      omega

lemma positional_eq_cons (d : Decimal) : ∃ c cs, d.positional = c :: cs ∧ c.isDigit := by
  obtain ⟨whole, places, h⟩ := d.exists_parts
  obtain ⟨c, whole, rfl⟩ := List.exists_cons_of_ne_nil h.whole_ne_nil
  exact ⟨c, _, h.text, h.digits c (by simp)⟩

end QCircuit.Decimal

namespace QCircuit.Text

/-- **Reading digits**: not empty, and what they spell is below the bound. -/
lemma digits?_eq_some {bound : ℕ} {ds : List Char} {n : ℕ} :
    digits? bound ds = some n ↔ ds ≠ [] ∧ (∀ d ∈ ds, d.isDigit) ∧
      Decimal.ofDigits ds < bound ∧ Decimal.ofDigits ds = n := by
  have hvalue : ds.foldl (fun n c => 10 * n + (c.toNat - '0'.toNat)) 0 = Decimal.ofDigits ds := rfl
  simp only [digits?, hvalue, Option.ite_none_right_eq_some, Bool.and_eq_true,
    Bool.not_eq_true', List.isEmpty_eq_false_iff, List.all_eq_true, decide_eq_true_eq,
    Option.some.injEq]
  tauto

end QCircuit.Text
