import Mathlib.Tactic
import QCircuit.Proofs.Amplitude.Indices
import QCircuit.Simulate.Outcome

/-!
Outcomes side by side.

The numbers of a combined outcome are products, one factor from each part. Their index has the
indices in the parts as its digits, the first part most significant and the size of each part as
its base. A part of `w` qubits has the base `2 ^ w`, so its digit is written in its own block of
qubits.
-/

namespace QCircuit

/-! ### Mixed radix -/

/-- The number with these digits, the first one most significant. -/
def place : (sizes digits : List Nat) → Nat
  | _ :: sizes, d :: ds => d * sizes.prod + place sizes ds
  | _, _ => 0

/-- The digits of a number. -/
def digitsIn : (sizes : List Nat) → (i : Nat) → List Nat
  | [], _ => []
  | _ :: sizes, i => i / sizes.prod :: digitsIn sizes (i % sizes.prod)

/-- Digits below their bases. -/
abbrev IsDigits (sizes digits : List Nat) : Prop := List.Forall₂ (· < ·) digits sizes

section Digits

variable {sizes digits : List Nat} {i : Nat}

lemma place_nil : place [] digits = 0 := by rw [place]; simp

lemma place_lt (h : IsDigits sizes digits) : place sizes digits < sizes.prod := by
  induction h with
  | nil => simp [place]
  | @cons d s ds ss hd _ ih =>
    rw [place, List.prod_cons]
    calc d * ss.prod + place ss ds < (d + 1) * ss.prod := by rw [Nat.succ_mul]; omega
      _ ≤ s * ss.prod := Nat.mul_le_mul_right _ hd

lemma digitsIn_place (h : IsDigits sizes digits) :
    digitsIn sizes (place sizes digits) = digits := by
  induction h with
  | nil => rfl
  | @cons d s ds ss _ hds ih =>
    have hlt := place_lt hds
    rw [place, digitsIn, Nat.mul_comm, Nat.mul_add_div (by omega), Nat.div_eq_of_lt hlt,
      Nat.add_zero, Nat.mul_add_mod, Nat.mod_eq_of_lt hlt, ih]

/-- A number below the product of the bases has digits, and they make it. -/
lemma place_digitsIn (hi : i < sizes.prod) :
    IsDigits sizes (digitsIn sizes i) ∧ place sizes (digitsIn sizes i) = i := by
  induction sizes generalizing i with
  | nil =>
    rw [List.prod_nil] at hi
    exact ⟨.nil, by rw [place_nil]; omega⟩
  | cons s ss ih =>
    rw [List.prod_cons] at hi
    have hpos : 0 < ss.prod := Nat.pos_of_ne_zero fun h => by simp [h] at hi
    obtain ⟨hdigits, hplace⟩ := ih (Nat.mod_lt i hpos)
    refine ⟨.cons ((Nat.div_lt_iff_lt_mul hpos).mpr hi) hdigits, ?_⟩
    rw [digitsIn, place, hplace, Nat.mul_comm]
    exact Nat.div_add_mod i ss.prod

/-- **Every index has its digits.** -/
theorem existsUnique_digits (hi : i < sizes.prod) :
    ∃! ds, IsDigits sizes ds ∧ place sizes ds = i :=
  ⟨digitsIn sizes i, place_digitsIn hi, fun _ ⟨hds, heq⟩ => heq ▸ (digitsIn_place hds).symm⟩

/-- A digit is what is left between the bases behind it and its own. -/
lemma div_mod_place (h : IsDigits sizes digits) {k s d : Nat} (hs : sizes[k]? = some s)
    (hd : digits[k]? = some d) : place sizes digits / (sizes.drop (k + 1)).prod % s = d := by
  induction h generalizing k with
  | nil => simp at hs
  | @cons d' s' ds ss hlt hds ih =>
    have hplace := place_lt hds
    rw [place, List.drop_succ_cons]
    cases k with
    | zero =>
      obtain rfl : s' = s := by simpa using hs
      obtain rfl : d' = d := by simpa using hd
      rw [List.drop_zero, Nat.mul_comm, Nat.mul_add_div (by omega), Nat.div_eq_of_lt hplace,
        Nat.add_zero, Nat.mod_eq_of_lt hlt]
    | succ k =>
      rw [List.getElem?_cons_succ] at hs hd
      -- the bases behind the first digit hold the one in question and those behind it
      have hsplit : ss.prod = (ss.drop (k + 1)).prod * (s * (ss.take k).prod) := by
        obtain ⟨hk, rfl⟩ := List.getElem?_eq_some_iff.mp hs
        rw [← List.prod_take_mul_prod_drop ss (k + 1), List.take_succ_eq_append_getElem hk,
          List.prod_append, List.prod_singleton]
        ring
      have hpos : 0 < (ss.drop (k + 1)).prod := Nat.pos_of_ne_zero fun h => by
        simp [hsplit, h] at hplace
      rw [← ih hs hd]
      conv_lhs => rw [hsplit]
      rw [show d' * ((ss.drop (k + 1)).prod * (s * (ss.take k).prod)) =
        (ss.drop (k + 1)).prod * (s * (d' * (ss.take k).prod)) by ring, Nat.mul_add_div hpos,
        Nat.mul_add_mod]

end Digits

/-! ### Blocks of qubits -/

/-- The number that a block of qubits holds. -/
lemma targetBits_range' {n first width : Nat} (h : first + width ≤ n) (i : Nat) :
    targetBits n (List.range' first width) i = i / 2 ^ (n - (first + width)) % 2 ^ width := by
  induction width generalizing first with
  | zero => simp [targetBits, Nat.mod_one]
  | succ width ih =>
    have hbit : qubitBit n first = n - (first + (width + 1)) + width := by
      unfold qubitBit
      omega
    rw [List.range'_succ, targetBits, ih (by omega), List.length_range', hbit,
      show first + 1 + width = first + (width + 1) by omega, Nat.pow_succ, Nat.mod_mul,
      Nat.toNat_testBit, Nat.pow_add, Nat.div_div_eq_div_mul]
    ring

/-- The qubits of a part, when the parts have these numbers of qubits. -/
def blockOf (widths : List Nat) (k : Nat) : List Nat :=
  List.range' (widths.take k).sum (widths.getD k 0)

lemma prod_two_pow (widths : List Nat) : (widths.map (2 ^ ·)).prod = 2 ^ widths.sum := by
  induction widths with
  | nil => rfl
  | cons w ws ih => rw [List.map_cons, List.prod_cons, ih, List.sum_cons, Nat.pow_add]

/-- **The digit of a part is the number in its block of qubits.** -/
theorem targetBits_block {widths digits : List Nat} (h : IsDigits (widths.map (2 ^ ·)) digits)
    {k d : Nat} (hd : digits[k]? = some d) :
    targetBits widths.sum (blockOf widths k) (place (widths.map (2 ^ ·)) digits) = d := by
  obtain ⟨hk, -⟩ := List.getElem?_eq_some_iff.mp hd
  have hk : k < widths.length := by simpa [h.length_eq] using hk
  have hsum : widths.sum = (widths.take k).sum + widths[k] + (widths.drop (k + 1)).sum := by
    rw [← List.sum_take_add_sum_drop widths (k + 1), List.take_succ_eq_append_getElem hk,
      List.sum_append, List.sum_singleton]
  have hs : (widths.map (2 ^ ·))[k]? = some (2 ^ widths[k]) := by simp [hk]
  have hdrop : ((widths.map (2 ^ ·)).drop (k + 1)).prod = 2 ^ (widths.drop (k + 1)).sum := by
    rw [← List.map_drop, prod_two_pow]
  rw [blockOf, List.getD_eq_getElem _ _ hk, targetBits_range' (by omega),
    show widths.sum - ((widths.take k).sum + widths[k]) = (widths.drop (k + 1)).sum by omega,
    ← hdrop, div_mod_place h hs hd]

/-! ### Products -/

section Products

variable {α : Type} [Mul α]

lemma length_kron (xs ys : List α) : (kron xs ys).length = xs.length * ys.length := by
  simp [kron, List.length_flatMap]

lemma getElem?_kron {xs ys : List α} {i j : Nat} {x y : α} (hx : xs[i]? = some x)
    (hy : ys[j]? = some y) : (kron xs ys)[i * ys.length + j]? = some (x * y) := by
  obtain ⟨hj, -⟩ := List.getElem?_eq_some_iff.mp hy
  induction xs generalizing i with
  | nil => simp at hx
  | cons z zs ih =>
    rw [show kron (z :: zs) ys = ys.map (z * ·) ++ kron zs ys from rfl]
    cases i with
    | zero =>
      obtain rfl : z = x := by simpa using hx
      rw [Nat.zero_mul, Nat.zero_add, List.getElem?_append_left (by simpa using hj),
        List.getElem?_map, hy, Option.map_some]
    | succ i =>
      rw [List.getElem?_cons_succ] at hx
      rw [Nat.succ_mul, List.getElem?_append_right (by rw [List.length_map]; omega),
        List.length_map, ← ih hx]
      congr 1
      omega

/-- The numbers at these indices, one from each list. -/
inductive Factors : (lists : List (List α)) → (digits : List Nat) → (xs : List α) → Prop
  | nil : Factors [] [] []
  | cons {lists : List (List α)} {digits : List Nat} {xs ys : List α} {d : Nat} {y : α}
      (hy : ys[d]? = some y) (h : Factors lists digits xs) :
      Factors (ys :: lists) (d :: digits) (y :: xs)

omit [Mul α] in
lemma exists_factors {lists : List (List α)} {digits : List Nat}
    (h : IsDigits (lists.map List.length) digits) : ∃ xs, Factors lists digits xs := by
  induction lists generalizing digits with
  | nil =>
    cases h
    exact ⟨[], .nil⟩
  | cons ys lists ih =>
    obtain _ | ⟨hd, hds⟩ := h
    obtain ⟨xs, hxs⟩ := ih hds
    exact ⟨_, .cons (List.getElem?_eq_getElem hd) hxs⟩

lemma length_foldl_kron (lists : List (List α)) (xs : List α) :
    (lists.foldl kron xs).length = xs.length * (lists.map List.length).prod := by
  induction lists generalizing xs with
  | nil => simp
  | cons ys lists ih =>
    rw [List.foldl_cons, ih, length_kron, List.map_cons, List.prod_cons, Nat.mul_assoc]

/-- The list that is multiplied with the others comes in front of the digits. -/
lemma getElem?_foldl_kron {lists : List (List α)} {digits : List Nat} {factors : List α}
    (h : Factors lists digits factors) {xs : List α} {i : Nat} {x : α} (hx : xs[i]? = some x) :
    (lists.foldl kron xs)[i * (lists.map List.length).prod +
        place (lists.map List.length) digits]? = some (factors.foldl (· * ·) x) := by
  induction h generalizing xs i x with
  | nil => simpa [place] using hx
  | @cons lists digits factors ys d y hy _ ih =>
    rw [List.foldl_cons, List.map_cons, List.foldl_cons, ← ih (getElem?_kron hx hy),
      List.prod_cons, place]
    congr 1
    ring

/-- **The products of lists**, at the index with these digits. -/
theorem getElem?_products {lists : List (List α)} {digits : List Nat}
    (h : IsDigits (lists.map List.length) digits) (x : α) :
    ∃ factors, Factors lists digits factors ∧
      (lists.foldl kron [x])[place (lists.map List.length) digits]? =
        some (factors.foldl (· * ·) x) := by
  obtain ⟨factors, hfactors⟩ := exists_factors h
  refine ⟨factors, hfactors, ?_⟩
  rw [← getElem?_foldl_kron hfactors (i := 0) (List.getElem?_cons_zero), Nat.zero_mul,
    Nat.zero_add]

end Products

/-! ### Outcomes -/

namespace Outcome

/-- The number of basis states. -/
def size (o : Outcome) : Nat := o.probabilities.length

/-- An outcome made of those of some parts, the first part most significant. -/
structure Combined (parts : List Outcome) (o : Outcome) : Prop where
  digits : ∀ i < (parts.map size).prod,
    ∃! ds, IsDigits (parts.map size) ds ∧ place (parts.map size) ds = i
  length_probabilities : o.probabilities.length = (parts.map size).prod
  probability : ∀ ds, IsDigits (parts.map size) ds →
    ∃ ps, Factors (parts.map (·.probabilities)) ds ps ∧
      o.probabilities[place (parts.map size) ds]? = some (ps.foldl (· * ·) 1.0)
  isSome_state : o.state.isSome ↔ ∀ part ∈ parts, part.state.isSome
  length_state : ∀ s ∈ o.state, s.length = (parts.map size).prod
  amplitude : ∀ s ∈ o.state, ∀ ds, IsDigits (parts.map size) ds →
    ∃ zs, Factors (parts.filterMap (·.state)) ds zs ∧
      s[place (parts.map size) ds]? = some (zs.foldl (· * ·) 1)
  /-- Parts of whole qubits have their indices in their own blocks of qubits. -/
  block : ∀ widths, parts.map size = widths.map (2 ^ ·) →
    ∀ ds, IsDigits (parts.map size) ds → ∀ k d, ds[k]? = some d →
      targetBits widths.sum (blockOf widths k) (place (parts.map size) ds) = d

lemma probabilities_foldl_tensor (parts : List Outcome) (o : Outcome) :
    (parts.foldl tensor o).probabilities =
      (parts.map (·.probabilities)).foldl kron o.probabilities := by
  induction parts generalizing o with
  | nil => rfl
  | cons part parts ih => exact ih (o.tensor part)

/-- A part without a state leaves none. -/
lemma state_foldl_tensor {parts : List Outcome} {o : Outcome} {s : List Complex} :
    (parts.foldl tensor o).state = some s ↔ (∀ part ∈ parts, part.state.isSome) ∧
      ∃ t, o.state = some t ∧ (parts.filterMap (·.state)).foldl kron t = s := by
  induction parts generalizing o with
  | nil => simp
  | cons part parts ih =>
    rw [List.foldl_cons, ih, List.forall_mem_cons]
    cases hpart : part.state with
    | none => simp [tensor, hpart]
    | some u =>
      cases ho : o.state with
      | none => simp [tensor, hpart, ho]
      | some t => simp [tensor, hpart, ho]

/-- The states of parts are as long as the parts are large. -/
lemma map_length_states {parts : List Outcome}
    (hstate : ∀ part ∈ parts, ∀ s ∈ part.state, s.length = part.size)
    (hall : ∀ part ∈ parts, part.state.isSome) :
    (parts.filterMap (·.state)).map List.length = parts.map size := by
  induction parts with
  | nil => rfl
  | cons part parts ih =>
    obtain ⟨hs, hstate⟩ := List.forall_mem_cons.mp hstate
    obtain ⟨hpart, hall⟩ := List.forall_mem_cons.mp hall
    obtain ⟨s, hpart⟩ := Option.isSome_iff_exists.mp hpart
    rw [List.filterMap_cons_some hpart, List.map_cons, List.map_cons, ih hstate hall, hs s hpart]

/-- **The outcomes of separate parts combine to their products.** -/
theorem foldl_tensor_combined {parts : List Outcome}
    (hstate : ∀ part ∈ parts, ∀ s ∈ part.state, s.length = part.size) :
    Combined parts (parts.foldl tensor unit) := by
  have hsizes : (parts.map (·.probabilities)).map List.length = parts.map size :=
    List.map_map ..
  have hprobs : (parts.foldl tensor unit).probabilities =
      (parts.map (·.probabilities)).foldl kron [1.0] := probabilities_foldl_tensor parts unit
  have hstates : ∀ s ∈ (parts.foldl tensor unit).state,
      (parts.filterMap (·.state)).map List.length = parts.map size ∧
        s = (parts.filterMap (·.state)).foldl kron [1] := by
    intro s hs
    obtain ⟨hall, t, ht, rfl⟩ := state_foldl_tensor.mp hs
    obtain rfl : [1] = t := Option.some.inj ht
    exact ⟨map_length_states hstate hall, rfl⟩
  refine ⟨fun i => existsUnique_digits, ?_, ?_, ?_, ?_, ?_, ?_⟩
  · rw [hprobs, length_foldl_kron, hsizes, List.length_singleton, Nat.one_mul]
  · intro ds hds
    rw [← hsizes] at hds ⊢
    rw [hprobs]
    exact getElem?_products hds 1.0
  · rw [Option.isSome_iff_exists]
    exact ⟨fun ⟨s, hs⟩ => (state_foldl_tensor.mp hs).1,
      fun hall => ⟨_, state_foldl_tensor.mpr ⟨hall, _, rfl, rfl⟩⟩⟩
  · intro s hs
    obtain ⟨hlengths, rfl⟩ := hstates s hs
    rw [length_foldl_kron, hlengths, List.length_singleton, Nat.one_mul]
  · intro s hs ds hds
    obtain ⟨hlengths, rfl⟩ := hstates s hs
    rw [← hlengths] at hds ⊢
    exact getElem?_products hds 1
  · intro widths hwidths ds hds k d hd
    rw [hwidths] at hds ⊢
    exact targetBits_block hds hd

/-- One qubit and two more, all with their states. -/
def oneBesideTwo : List Outcome :=
  [⟨[0.25, 0.75], some [⟨0.5, 0.0⟩, ⟨0.0, 1.0⟩]⟩,
    ⟨[0.5, 0.0, 0.5, 0.0], some [1, 0, ⟨0.0, 1.0⟩, 0]⟩]

/-- The second state of the one and the third of the two stand at index 6. -/
theorem oneBesideTwo_combined :
    (∀ part ∈ oneBesideTwo, ∀ s ∈ part.state, s.length = part.size) ∧
      Combined oneBesideTwo (oneBesideTwo.foldl tensor unit) ∧
      (oneBesideTwo.foldl tensor unit).probabilities[6]? = some (1.0 * 0.75 * 0.5) ∧
      (∃ s, (oneBesideTwo.foldl tensor unit).state = some s ∧
        s[6]? = some (1 * ⟨0.0, 1.0⟩ * ⟨0.0, 1.0⟩)) ∧
      targetBits 3 [1, 2] 6 = 2 := by
  have hstate : ∀ part ∈ oneBesideTwo, ∀ s ∈ part.state, s.length = part.size := by
    simp [oneBesideTwo, size]
  have h := foldl_tensor_combined hstate
  have hds : IsDigits (oneBesideTwo.map size) [1, 2] := .cons (by decide) (.cons (by decide) .nil)
  refine ⟨hstate, h, ?_, ?_, h.block [1, 2] rfl [1, 2] hds 1 2 rfl⟩
  · obtain ⟨_, _ | ⟨hp, _ | ⟨hp', _ | _⟩⟩, heq⟩ := h.probability [1, 2] hds
    obtain rfl := Option.some.inj hp
    obtain rfl := Option.some.inj hp'
    exact heq
  · obtain ⟨s, hs⟩ := Option.isSome_iff_exists.mp (h.isSome_state.mpr (by simp [oneBesideTwo]))
    obtain ⟨_, _ | ⟨hz, _ | ⟨hz', _ | _⟩⟩, heq⟩ := h.amplitude s hs [1, 2] hds
    obtain rfl := Option.some.inj hz
    obtain rfl := Option.some.inj hz'
    exact ⟨s, hs, heq⟩

end Outcome

end QCircuit
