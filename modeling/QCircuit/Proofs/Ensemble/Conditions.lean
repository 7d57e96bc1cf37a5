import Mathlib.Tactic
import QCircuit.Condition

/-!
What a condition compares.

The bits of a condition form a natural number, the first bit most significant. It is compared as the
signed word that is left of it, so every comparison is the true one as long as the number is below
`2 ^ 63`. From there on the number is above all constants, and the word need not be.
-/

namespace QCircuit

/-! ### Relations -/

namespace Relation

/-- What a relation says of two integers. -/
def Relates : Relation → Int → Int → Prop
  | .eq, a, b => a = b
  | .ne, a, b => a ≠ b
  | .lt, a, b => a < b
  | .gt, a, b => a > b
  | .le, a, b => a ≤ b
  | .ge, a, b => a ≥ b

/-- Whether a relation holds between an integer and the smaller ones. -/
def above : Relation → Bool
  | .ne | .gt | .ge => true
  | .eq | .lt | .le => false

variable {r : Relation} {a b : Int}

lemma holds_iff : r.holds a b = true ↔ r.Relates a b := by
  cases r <;> simp [holds, Relates]

lemma relates_of_lt (h : b < a) : r.Relates a b ↔ r.above = true := by
  cases r <;> simp only [Relates, above] <;> simp <;> omega

end Relation

namespace Condition

/-! ### The number of the bits -/

/-- The number that the bits of a condition form; a bit that the state does not have reads as 0. -/
def number (c : Condition) (state : List Bool) : Nat :=
  ∑ i : Fin c.clbits.length,
    (state.getD c.clbits[i] false).toNat * 2 ^ (c.clbits.length - 1 - i)

/-- A number with bits pushed in at its end. -/
def pushBits (bit : Nat → Bool) (n : Nat) (clbits : List Nat) : Nat :=
  clbits.foldl (fun n b => 2 * n + (bit b).toNat) n

lemma pushBits_eq (bit : Nat → Bool) (n : Nat) (clbits : List Nat) :
    pushBits bit n clbits = n * 2 ^ clbits.length +
      ∑ i : Fin clbits.length, (bit clbits[i]).toNat * 2 ^ (clbits.length - 1 - i) := by
  induction clbits generalizing n with
  | nil => simp [pushBits]
  | cons b bs ih =>
    have hexp : ∀ i : Fin bs.length, bs.length + 1 - 1 - (i.succ : Nat) = bs.length - 1 - i := by
      intro i
      rw [Fin.val_succ]
      omega
    simp only [List.length_cons, Fin.sum_univ_succ, hexp]
    rw [show pushBits bit n (b :: bs) = pushBits bit (2 * n + (bit b).toNat) bs from rfl, ih]
    simp only [Fin.getElem_fin, Fin.val_zero, Fin.val_succ, List.getElem_cons_zero,
      List.getElem_cons_succ]
    rw [Nat.add_sub_cancel, Nat.sub_zero]
    ring

lemma pushBits_lt (bit : Nat → Bool) (n : Nat) (clbits : List Nat) :
    pushBits bit n clbits < (n + 1) * 2 ^ clbits.length := by
  induction clbits generalizing n with
  | nil => simp [pushBits]
  | cons b bs ih =>
    have hbit := Bool.toNat_le (bit b)
    calc pushBits bit (2 * n + (bit b).toNat) bs
        < (2 * n + (bit b).toNat + 1) * 2 ^ bs.length := ih _
      _ ≤ (2 * n + 2) * 2 ^ bs.length := Nat.mul_le_mul_right _ (by omega)
      _ = (n + 1) * 2 ^ (b :: bs).length := by rw [List.length_cons, Nat.pow_succ]; ring

/-- Cutting down to a word at every step or at the end is the same. -/
lemma foldl_bmod (word : Nat) (bit : Nat → Bool) (n : Nat) (clbits : List Nat) :
    clbits.foldl (fun (n : Int) b => (2 * n + if bit b then 1 else 0).bmod word)
        ((n : Int).bmod word) = (pushBits bit n clbits : Int).bmod word := by
  induction clbits generalizing n with
  | nil => rfl
  | cons b bs ih =>
    have hbit : ((bit b).toNat : Int) = if bit b then 1 else 0 := by cases bit b <;> rfl
    have hstep : (2 * (n : Int).bmod word + if bit b then 1 else 0).bmod word =
        ((2 * n + (bit b).toNat : Nat) : Int).bmod word := by
      rw [← Int.bmod_add_bmod, Int.mul_bmod_bmod, Int.bmod_add_bmod, ← hbit]
      norm_cast
    rw [List.foldl_cons, hstep, ih]
    rfl

variable (c : Condition) (state : List Bool)

lemma number_eq : c.number state = pushBits (state.getD · false) 0 c.clbits := by
  rw [pushBits_eq, Nat.zero_mul, Nat.zero_add, number]

lemma number_lt : c.number state < 2 ^ c.clbits.length := by
  have h := pushBits_lt (state.getD · false) 0 c.clbits
  rwa [← number_eq, Nat.zero_add, Nat.one_mul] at h

/-- **The word that is compared** is what 64 bits leave of the number, with a sign. -/
lemma value_eq_bmod : c.value state = (c.number state : Int).bmod 18446744073709551616 := by
  rw [number_eq, ← foldl_bmod]
  rfl

/-- The word is the number itself below `2 ^ 63` only. -/
lemma value_eq_number_iff :
    c.value state = c.number state ↔ c.number state < 9223372036854775808 := by
  rw [value_eq_bmod]
  constructor
  · intro h
    have hlt := Int.bmod_lt (x := c.number state) (m := 18446744073709551616) (by decide)
    omega
  · intro h
    exact Int.bmod_eq_of_le (by omega) (by omega)

/-- **When a condition compares its number.** What holds of the word is true of the number if and
only if the number is below `2 ^ 63`, or the word happens to stand to the constant as a number above
all words does. Up to 63 bits always form such a number. -/
theorem holds_relates_iff {c : Condition} (hconstant : c.constant < 9223372036854775808)
    (state : List Bool) :
    c.value state = (c.number state : Int).bmod 18446744073709551616 ∧
      ((c.holds state = true ↔ c.relation.Relates (c.number state) c.constant) ↔
        c.number state < 9223372036854775808 ∨
          c.relation.holds (c.value state) c.constant = c.relation.above) ∧
      (c.clbits.length ≤ 63 → c.number state < 9223372036854775808) := by
  refine ⟨c.value_eq_bmod state, ?_, fun hlen => ?_⟩
  · rcases Nat.lt_or_ge (c.number state) 9223372036854775808 with hlt | hge
    · refine iff_of_true ?_ (.inl hlt)
      rw [holds, (c.value_eq_number_iff state).mpr hlt, Relation.holds_iff]
    · have habove : c.relation.Relates (c.number state) c.constant ↔ c.relation.above = true :=
        Relation.relates_of_lt (by omega)
      rw [habove, holds, or_iff_right (Nat.not_lt.mpr hge)]
      exact Bool.coe_iff_coe
  · calc c.number state < 2 ^ c.clbits.length := c.number_lt state
      _ ≤ 2 ^ 63 := Nat.pow_le_pow_right two_pos hlen
      _ = 9223372036854775808 := by norm_num

/-! ### Sixty-four bits -/

/-- Sixty-four bits that are compared with 0. -/
def sixtyFour (relation : Relation) : Condition := ⟨List.range 64, relation, 0⟩

lemma number_sixtyFour (relation : Relation) :
    (sixtyFour relation).number [true] = 9223372036854775808 := by
  rw [number_eq]
  rfl

lemma value_sixtyFour (relation : Relation) :
    (sixtyFour relation).value [true] = -9223372036854775808 := by
  rw [value_eq_bmod, number_sixtyFour]
  rfl

/-- With the first of the bits set the word is not 0, and neither is the number. -/
theorem sixtyFour_ne_relates : (sixtyFour .ne).constant < 9223372036854775808 ∧
    ¬ (sixtyFour .ne).number [true] < 9223372036854775808 ∧
      ((sixtyFour .ne).holds [true] = true ↔
        (sixtyFour .ne).relation.Relates ((sixtyFour .ne).number [true])
          (sixtyFour .ne).constant) := by
  have hconstant : (sixtyFour .ne).constant < 9223372036854775808 := by decide
  obtain ⟨-, hiff, -⟩ := holds_relates_iff hconstant [true]
  refine ⟨hconstant, by rw [number_sixtyFour]; decide, hiff.mpr (.inr ?_)⟩
  rw [value_sixtyFour]
  rfl

/-- The number is greater than 0 then, and the word is not. -/
theorem sixtyFour_gt_fails : (sixtyFour .gt).value [true] = -9223372036854775808 ∧
    (sixtyFour .gt).number [true] = 9223372036854775808 ∧
      ¬ ((sixtyFour .gt).holds [true] = true ↔
        (sixtyFour .gt).relation.Relates ((sixtyFour .gt).number [true])
          (sixtyFour .gt).constant) := by
  refine ⟨value_sixtyFour .gt, number_sixtyFour .gt, ?_⟩
  rw [number_sixtyFour, holds, value_sixtyFour]
  simp [sixtyFour, Relation.Relates, Relation.holds]

end Condition

end QCircuit
