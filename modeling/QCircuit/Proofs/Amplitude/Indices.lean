import Mathlib.Algebra.GroupWithZero.Nat
import Mathlib.Data.List.Nodup
import Mathlib.Data.Nat.Bitwise
import Mathlib.Tactic.Common
import QCircuit.Simulate.Amplitudes

/-!
Basis indices and the bits of target qubits.

Replacing the target bits of an index by those of `j`, for every `j` below `2 ^ k`, gives the group
of the index. Every index is in the group of one base, the index without its target bits, and there
its own target bits say which member it is.
-/

namespace QCircuit

/-- The bit of a basis index that a qubit stands for. -/
def qubitBit (n q : Nat) : Nat := n - 1 - q

/-- The number with one bit replaced. -/
def setBit (i b : Nat) (v : Bool) : Nat := if i.testBit b = v then i else i ^^^ (1 <<< b)

/-- The index with the bits of `j` in place of its target bits, the first target being the most
significant. -/
def overwrite (n : Nat) : (targets : List Nat) → (i j : Nat) → Nat
  | [], i, _ => i
  | q :: qs, i, j => setBit (overwrite n qs i j) (qubitBit n q) (j.testBit qs.length)

/-- The number that the target bits of an index form, the first target most significant. -/
def targetBits (n : Nat) : (targets : List Nat) → (i : Nat) → Nat
  | [], _ => 0
  | q :: qs, i => (i.testBit (qubitBit n q)).toNat * 2 ^ qs.length + targetBits n qs i

/-! ### Single bits -/

@[simp] lemma testBit_setBit (i b c : Nat) (v : Bool) :
    (setBit i b v).testBit c = if c = b then v else i.testBit c := by
  unfold setBit
  split
  · next h =>
    split
    · next hc => rw [hc, h]
    · rfl
  · next h =>
    rw [Nat.testBit_xor, Nat.one_shiftLeft, Nat.testBit_two_pow]
    split
    · next hc =>
      subst hc
      cases v <;> simp_all
    · next hc => simp [Ne.symm hc]

lemma setBit_self (i b : Nat) : setBit i b (i.testBit b) = i := if_pos rfl

lemma setBit_true (i n q : Nat) : setBit i (qubitBit n q) true = qubitMask n q ||| i := by
  refine Nat.eq_of_testBit_eq fun c => ?_
  rw [testBit_setBit, Nat.testBit_or, qubitMask, Nat.one_shiftLeft, Nat.testBit_two_pow]
  by_cases hc : c = qubitBit n q
  · simp [hc, qubitBit]
  · simp [hc, show ¬n - 1 - q = c from Ne.symm hc]

/-! ### Target bits -/

variable {n : Nat} {targets : List Nat}

lemma testBit_overwrite_cons (q : Nat) (qs : List Nat) (i j c : Nat) :
    (overwrite n (q :: qs) i j).testBit c =
      if c = qubitBit n q then j.testBit qs.length else (overwrite n qs i j).testBit c :=
  testBit_setBit ..

/-- All other bits stay. -/
lemma testBit_overwrite_of_notMem {c : Nat} (hc : c ∉ targets.map (qubitBit n)) (i j : Nat) :
    (overwrite n targets i j).testBit c = i.testBit c := by
  induction targets with
  | nil => rfl
  | cons q qs ih =>
    simp only [List.map_cons, List.mem_cons, not_or] at hc
    rw [testBit_overwrite_cons, if_neg hc.1, ih hc.2]

/-- The target bits do not depend on the index. -/
lemma testBit_overwrite_of_mem {c : Nat} (hc : c ∈ targets.map (qubitBit n)) (i i' j : Nat) :
    (overwrite n targets i j).testBit c = (overwrite n targets i' j).testBit c := by
  induction targets with
  | nil => simp at hc
  | cons q qs ih =>
    rw [testBit_overwrite_cons, testBit_overwrite_cons]
    split
    · rfl
    · next hne => exact ih ((List.mem_cons.mp hc).resolve_left hne)

lemma testBit_overwrite_zero {c : Nat} (hc : c ∈ targets.map (qubitBit n)) (i : Nat) :
    (overwrite n targets i 0).testBit c = false := by
  induction targets with
  | nil => simp at hc
  | cons q qs ih =>
    rw [testBit_overwrite_cons]
    split
    · simp
    · next hne => exact ih ((List.mem_cons.mp hc).resolve_left hne)

/-- The last bits written are the ones that count. -/
lemma overwrite_overwrite (i j j' : Nat) :
    overwrite n targets (overwrite n targets i j) j' = overwrite n targets i j' := by
  refine Nat.eq_of_testBit_eq fun c => ?_
  by_cases hc : c ∈ targets.map (qubitBit n)
  · exact testBit_overwrite_of_mem hc ..
  · rw [testBit_overwrite_of_notMem hc, testBit_overwrite_of_notMem hc,
      testBit_overwrite_of_notMem hc]

/-- Only as many bits of `j` are read as there are targets. -/
lemma overwrite_congr {j j' : Nat} (h : ∀ b < targets.length, j.testBit b = j'.testBit b)
    (i : Nat) : overwrite n targets i j = overwrite n targets i j' := by
  induction targets with
  | nil => rfl
  | cons q qs ih =>
    rw [overwrite, overwrite, ih fun b hb => h b (Nat.lt_succ_of_lt hb),
      h qs.length (Nat.lt_succ_self _)]

lemma overwrite_two_pow_add {j : Nat} (i : Nat) :
    overwrite n targets i (2 ^ targets.length + j) = overwrite n targets i j :=
  overwrite_congr (fun _ hb => Nat.testBit_two_pow_add_gt hb j) i

lemma overwrite_lt (hlt : ∀ q ∈ targets, q < n) {i : Nat} (hi : i < 2 ^ n) (j : Nat) :
    overwrite n targets i j < 2 ^ n := by
  refine Nat.lt_pow_two_of_testBit _ fun c hc => ?_
  rw [testBit_overwrite_of_notMem]
  · exact Nat.testBit_lt_two_pow (Nat.lt_of_lt_of_le hi (Nat.pow_le_pow_right (by omega) hc))
  · intro hmem
    obtain ⟨q, hq, rfl⟩ := List.mem_map.mp hmem
    have := hlt q hq
    simp only [qubitBit] at hc
    omega

/-! ### Which member of its group an index is -/

lemma targetBits_lt (n : Nat) (targets : List Nat) (i : Nat) :
    targetBits n targets i < 2 ^ targets.length := by
  induction targets with
  | nil => simp [targetBits]
  | cons q qs ih =>
    rw [targetBits, List.length_cons, Nat.pow_succ]
    cases i.testBit (qubitBit n q) <;> simp only [Bool.toNat_false, Bool.toNat_true] <;> omega

/-- Only the target bits are read. -/
lemma targetBits_congr {i i' : Nat}
    (h : ∀ b ∈ targets.map (qubitBit n), i.testBit b = i'.testBit b) :
    targetBits n targets i = targetBits n targets i' := by
  induction targets with
  | nil => rfl
  | cons q qs ih =>
    obtain ⟨hq, hqs⟩ := List.forall_mem_cons.mp h
    rw [targetBits, targetBits, hq, ih hqs]

/-- An index is the member of its group that its target bits say. -/
lemma overwrite_targetBits (n : Nat) (targets : List Nat) (i : Nat) :
    overwrite n targets i (targetBits n targets i) = i := by
  induction targets with
  | nil => rfl
  | cons q qs ih =>
    have hlt := targetBits_lt n qs i
    have hlow : ∀ b < qs.length,
        (targetBits n (q :: qs) i).testBit b = (targetBits n qs i).testBit b := by
      intro b hb
      rw [targetBits, Nat.mul_comm, Nat.testBit_two_pow_mul_add _ hlt, if_pos hb]
    have htop : (targetBits n (q :: qs) i).testBit qs.length = i.testBit (qubitBit n q) := by
      rw [targetBits, Nat.mul_comm, Nat.testBit_two_pow_mul_add _ hlt, if_neg (Nat.lt_irrefl _),
        Nat.sub_self]
      cases i.testBit (qubitBit n q) <;> rfl
    rw [overwrite, overwrite_congr hlow, ih, htop, setBit_self]

/-- Different members of a group are different indices. -/
lemma targetBits_overwrite (hnd : (targets.map (qubitBit n)).Nodup) (i : Nat) {j : Nat}
    (hj : j < 2 ^ targets.length) : targetBits n targets (overwrite n targets i j) = j := by
  induction targets generalizing j with
  | nil =>
    simp only [List.length_nil, Nat.pow_zero, Nat.lt_one_iff] at hj
    rw [hj, targetBits]
  | cons q qs ih =>
    obtain ⟨hq, hnd⟩ := List.nodup_cons.mp hnd
    rw [List.length_cons, Nat.pow_succ] at hj
    have hlow : overwrite n qs i j = overwrite n qs i (j % 2 ^ qs.length) :=
      overwrite_congr
        (fun b hb => by rw [Nat.testBit_mod_two_pow, decide_eq_true hb, Bool.true_and]) i
    have hrest : targetBits n qs (overwrite n (q :: qs) i j) = j % 2 ^ qs.length := by
      rw [← ih hnd (Nat.mod_lt j (Nat.two_pow_pos _)), ← hlow]
      refine targetBits_congr fun b hb => ?_
      have hne : b ≠ qubitBit n q := fun h => hq (h ▸ hb)
      rw [testBit_overwrite_cons, if_neg hne]
    have hhigh : j / 2 ^ qs.length < 2 := Nat.div_lt_of_lt_mul hj
    rw [targetBits, hrest, testBit_overwrite_cons, if_pos rfl, Nat.toNat_testBit,
      Nat.mod_eq_of_lt hhigh, Nat.div_add_mod']

/-! ### Bases and offsets -/

lemma nodup_qubitBits (hnd : targets.Nodup) (hlt : ∀ q ∈ targets, q < n) :
    (targets.map (qubitBit n)).Nodup := by
  refine hnd.map_on fun q hq r hr h => ?_
  have := hlt q hq
  have := hlt r hr
  simp only [qubitBit] at h
  omega

lemma isBase_iff {i : Nat} :
    isBase n targets i = true ↔ ∀ b ∈ targets.map (qubitBit n), i.testBit b = false := by
  rw [List.forall_mem_map, isBase, List.all_eq_true]
  refine forall₂_congr fun q _ => ?_
  rw [beq_iff_eq, qubitMask, Nat.one_shiftLeft, Nat.and_two_pow, qubitBit]
  cases i.testBit (n - 1 - q) <;> simp

/-- Without its target bits an index is a base. -/
lemma isBase_overwrite (i : Nat) : isBase n targets (overwrite n targets i 0) = true :=
  isBase_iff.mpr fun _ hb => testBit_overwrite_zero hb i

/-- A base is without target bits. -/
lemma overwrite_of_isBase {i : Nat} (h : isBase n targets i = true) :
    overwrite n targets i 0 = i := by
  refine Nat.eq_of_testBit_eq fun c => ?_
  by_cases hc : c ∈ targets.map (qubitBit n)
  · rw [testBit_overwrite_zero hc, isBase_iff.mp h c hc]
  · exact testBit_overwrite_of_notMem hc i 0

/-- **The offsets lead from a base through its group, in the order of the rows of a matrix.** -/
theorem map_offsets (hnd : (targets.map (qubitBit n)).Nodup) {base : Nat}
    (h : isBase n targets base = true) :
    (offsets n targets).map (base ||| ·) =
      (List.range (2 ^ targets.length)).map (overwrite n targets base) := by
  induction targets with
  | nil => simp [offsets, overwrite]
  | cons q qs ih =>
    obtain ⟨hq, hnd⟩ := List.nodup_cons.mp hnd
    have hbits := isBase_iff.mp h
    obtain ⟨hzero, hqs⟩ := List.forall_mem_cons.mp hbits
    have ih := ih hnd (isBase_iff.mpr hqs)
    have hlow : ∀ j < 2 ^ qs.length, overwrite n (q :: qs) base j = overwrite n qs base j := by
      intro j hj
      have hbit : (overwrite n qs base j).testBit (qubitBit n q) = false := by
        rw [testBit_overwrite_of_notMem hq, hzero]
      rw [overwrite, Nat.testBit_lt_two_pow hj, ← hbit, setBit_self]
    have hhigh : ∀ j < 2 ^ qs.length, overwrite n (q :: qs) base (2 ^ qs.length + j) =
        qubitMask n q ||| overwrite n qs base j := by
      intro j hj
      rw [overwrite, overwrite_two_pow_add, Nat.testBit_two_pow_add_eq, Nat.testBit_lt_two_pow hj,
        Bool.not_false, setBit_true]
    have hmask : (offsets n qs).map (fun o => base ||| (qubitMask n q ||| o)) =
        ((offsets n qs).map (base ||| ·)).map (qubitMask n q ||| ·) := by
      rw [List.map_map]
      exact List.map_congr_left fun o _ => Nat.or_left_comm ..
    rw [List.length_cons, Nat.pow_succ, Nat.mul_two, List.range_add, List.map_append, List.map_map,
      offsets, List.map_append, List.map_map]
    congr 1
    · rw [ih]
      exact (List.map_congr_left fun j hj => hlow j (List.mem_range.mp hj)).symm
    · rw [show ((base ||| ·) ∘ (qubitMask n q ||| ·) : Nat → Nat) =
        fun o => base ||| (qubitMask n q ||| o) from rfl, hmask, ih, List.map_map]
      exact (List.map_congr_left fun j hj => hhigh j (List.mem_range.mp hj)).symm

/-- With qubit 1 set, and the last qubit before the first one. -/
example : (offsets 3 [2, 0]).map (2 ||| ·) = [2, 6, 3, 7] := by decide

end QCircuit
