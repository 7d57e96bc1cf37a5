import QCircuit.Proofs.Amplitude.Indices

/-!
A matrix applied in place.

The pass over the bases overwrites the amplitudes that it reads. Yet a base reads and writes its own
group only, and no index is in two groups, so what a base reads is what was there before the pass.
-/

namespace QCircuit

variable {α : Type} {n : Nat} {targets : List Nat}

/-! ### Writing a list of values -/

/-- The values written at the indices, one after the other. -/
def write (amps : Array α) (indices : List Nat) (values : List α) : Array α :=
  (indices.zip values).foldl (fun amps p => amps.setIfInBounds p.1 p.2) amps

lemma write_cons (amps : Array α) (i : Nat) (is : List Nat) (x : α) (xs : List α) :
    write amps (i :: is) (x :: xs) = write (amps.setIfInBounds i x) is xs := rfl

@[simp] lemma size_write (amps : Array α) (indices : List Nat) (values : List α) :
    (write amps indices values).size = amps.size := by
  unfold write
  induction indices.zip values generalizing amps with
  | nil => rfl
  | cons p ps ih => rw [List.foldl_cons, ih, Array.size_setIfInBounds]

lemma getElem?_write_of_notMem {i : Nat} {indices : List Nat} (hi : i ∉ indices) (amps : Array α)
    (values : List α) : (write amps indices values)[i]? = amps[i]? := by
  induction indices generalizing amps values with
  | nil => rfl
  | cons b bs ih =>
    obtain ⟨hb, hbs⟩ := not_or.mp (mt List.mem_cons.mpr hi)
    cases values with
    | nil => rfl
    | cons x xs => rw [write_cons, ih hbs, Array.getElem?_setIfInBounds_ne (Ne.symm hb)]

lemma getElem?_write {i j : Nat} {indices : List Nat} (hnd : indices.Nodup)
    (hj : indices[j]? = some i) {amps : Array α} (hi : i < amps.size) {values : List α}
    (hlen : values.length = indices.length) :
    (write amps indices values)[i]? = values[j]? := by
  induction indices generalizing amps values j with
  | nil => simp at hj
  | cons b bs ih =>
    obtain ⟨hb, hnd⟩ := List.nodup_cons.mp hnd
    obtain ⟨x, xs, rfl⟩ := List.exists_cons_of_length_eq_add_one hlen
    rw [List.length_cons, List.length_cons, Nat.succ_inj] at hlen
    rw [write_cons]
    cases j with
    | zero =>
      rw [List.getElem?_cons_zero, Option.some.injEq] at hj
      subst hj
      rw [getElem?_write_of_notMem hb, Array.getElem?_setIfInBounds_self_of_lt hi,
        List.getElem?_cons_zero]
    | succ j =>
      rw [List.getElem?_cons_succ] at hj ⊢
      exact ih hnd hj (by rwa [Array.size_setIfInBounds]) hlen

lemma setGroup_eq_write (amps : Array α) (offs : List Nat) (base : Nat) (values : List α) :
    setGroup amps offs base values = write amps (offs.map (base ||| ·)) values := by
  rw [setGroup, write, List.zip_map_left, List.foldl_map]
  rfl

/-! ### One group -/

/-- The amplitudes of the group of an index. -/
def gathered [Zero α] (n : Nat) (targets : List Nat) (amps : Array α) (i : Nat) : List α :=
  (List.range (2 ^ targets.length)).map fun j => amps.getD (overwrite n targets i j) 0

lemma gathered_overwrite [Zero α] (amps : Array α) (i j : Nat) :
    gathered n targets amps (overwrite n targets i j) = gathered n targets amps i := by
  simp only [gathered, overwrite_overwrite]

/-- Only the group of the index is read. -/
lemma gathered_congr [Zero α] {amps amps' : Array α} {i : Nat}
    (h : ∀ j, amps[overwrite n targets i j]? = amps'[overwrite n targets i j]?) :
    gathered n targets amps i = gathered n targets amps' i := by
  simp only [gathered, Array.getD_eq_getD_getElem?, h]

section Group

variable (hnd : (targets.map (qubitBit n)).Nodup) {base : Nat}
  (hbase : isBase n targets base = true)
include hnd hbase

lemma group_eq_gathered [Zero α] (amps : Array α) :
    group amps (offsets n targets) base = gathered n targets amps base := by
  have h := congrArg (List.map fun i => amps.getD i 0) (map_offsets hnd hbase)
  rwa [List.map_map, List.map_map] at h

/-- No other group is written. -/
lemma getElem?_setGroup_of_ne {i : Nat} (hi : overwrite n targets i 0 ≠ base) (amps : Array α)
    (values : List α) : (setGroup amps (offsets n targets) base values)[i]? = amps[i]? := by
  rw [setGroup_eq_write, map_offsets hnd hbase]
  refine getElem?_write_of_notMem (fun hmem => hi ?_) amps values
  obtain ⟨j, -, rfl⟩ := List.mem_map.mp hmem
  rw [overwrite_overwrite, overwrite_of_isBase hbase]

/-- A group is written at the indices that have its base, at each with the value of its place. -/
lemma getElem?_setGroup {amps : Array α} {values : List α}
    (hlen : values.length = 2 ^ targets.length) {i : Nat} (hi : i < amps.size) :
    (setGroup amps (offsets n targets) base values)[i]? =
      if overwrite n targets i 0 = base then values[targetBits n targets i]? else amps[i]? := by
  split
  · next h =>
    have hdistinct : ((List.range (2 ^ targets.length)).map (overwrite n targets base)).Nodup := by
      refine List.nodup_range.map_on fun j hj j' hj' he => ?_
      rw [← targetBits_overwrite hnd base (List.mem_range.mp hj), he,
        targetBits_overwrite hnd base (List.mem_range.mp hj')]
    rw [setGroup_eq_write, map_offsets hnd hbase]
    refine getElem?_write hdistinct ?_ hi (by simpa using hlen)
    rw [List.getElem?_map, List.getElem?_range (targetBits_lt n targets i), Option.map_some, ← h,
      overwrite_overwrite, overwrite_targetBits]
  · next h => exact getElem?_setGroup_of_ne hnd hbase h amps values

end Group

/-! ### The pass over the bases -/

section Pass

variable [Zero α] [One α] [Add α] [Mul α]

/-- One step of the pass: the group of a base, multiplied. -/
def applyAt (n : Nat) (targets : List Nat) (m : Matrix α) (amps : Array α) (base : Nat) : Array α :=
  setGroup amps (offsets n targets) base (m.mulVec (group amps (offsets n targets) base))

lemma applyMatrix_eq_foldl (n : Nat) (targets : List Nat) (m : Matrix α) (amps : Array α) :
    applyMatrix n targets m amps =
      ((List.range amps.size).filter (isBase n targets)).foldl (applyAt n targets m) amps := rfl

@[simp] lemma size_applyAt (m : Matrix α) (amps : Array α) (base : Nat) :
    (applyAt n targets m amps base).size = amps.size := by
  rw [applyAt, setGroup_eq_write, size_write]

lemma applyMatrix_size (n : Nat) (targets : List Nat) (m : Matrix α) (amps : Array α) :
    (applyMatrix n targets m amps).size = amps.size := by
  rw [applyMatrix_eq_foldl]
  generalize (List.range amps.size).filter (isBase n targets) = bases
  induction bases generalizing amps with
  | nil => rfl
  | cons base bases ih => rw [List.foldl_cons, ih, size_applyAt]

variable {m : Matrix α} (hnd : (targets.map (qubitBit n)).Nodup)
  (hm : m.length = 2 ^ targets.length)
include hnd hm

/-- A step changes the group of its base, and reads nothing else. -/
lemma getElem?_applyAt {amps : Array α} {base i : Nat} (hbase : isBase n targets base = true)
    (hi : i < amps.size) :
    (applyAt n targets m amps base)[i]? =
      if overwrite n targets i 0 = base then
        m[targetBits n targets i]?.map (dot · (gathered n targets amps i))
      else amps[i]? := by
  have hlen : (m.mulVec (group amps (offsets n targets) base)).length = 2 ^ targets.length := by
    rw [Matrix.mulVec, List.length_map, hm]
  rw [applyAt, getElem?_setGroup hnd hbase hlen hi]
  split
  · next h =>
    rw [Matrix.mulVec, List.getElem?_map, group_eq_gathered hnd hbase, ← h, gathered_overwrite]
  · rfl

/-- After a pass over some bases their groups are multiplied, and the others are as before. -/
lemma getElem?_foldl_applyAt {bases : List Nat} (hdistinct : bases.Nodup)
    (hbases : ∀ base ∈ bases, isBase n targets base = true) {amps : Array α} {i : Nat}
    (hi : i < amps.size) :
    (bases.foldl (applyAt n targets m) amps)[i]? =
      if overwrite n targets i 0 ∈ bases then
        m[targetBits n targets i]?.map (dot · (gathered n targets amps i))
      else amps[i]? := by
  induction bases generalizing amps with
  | nil => rfl
  | cons base bases ih =>
    obtain ⟨hnotMem, hdistinct⟩ := List.nodup_cons.mp hdistinct
    obtain ⟨hbase, hbases⟩ := List.forall_mem_cons.mp hbases
    rw [List.foldl_cons, ih hdistinct hbases (by rwa [size_applyAt])]
    by_cases hmem : overwrite n targets i 0 ∈ bases
    · rw [if_pos hmem, if_pos (List.mem_cons_of_mem _ hmem)]
      -- the group is read later, and its indices are not in the group of `base`
      have hne : overwrite n targets i 0 ≠ base := fun h => hnotMem (h ▸ hmem)
      have hkept : ∀ j, (applyAt n targets m amps base)[overwrite n targets i j]? =
          amps[overwrite n targets i j]? := by
        intro j
        rw [applyAt, getElem?_setGroup_of_ne hnd hbase]
        rwa [overwrite_overwrite]
      rw [gathered_congr hkept]
    · rw [if_neg hmem, getElem?_applyAt hnd hm hbase hi]
      simp only [List.mem_cons, hmem, or_false]

end Pass

/-- **A matrix applied in place is the matrix applied.** The amplitude at every index becomes the
product of the row that the target bits of the index say and the amplitudes that were there before
at the members of its group. -/
theorem getElem?_applyMatrix [Zero α] [One α] [Add α] [Mul α] (hnd : targets.Nodup)
    (hlt : ∀ q ∈ targets, q < n) {m : Matrix α} (hm : m.length = 2 ^ targets.length)
    {amps : Array α} (hsize : amps.size = 2 ^ n) :
    (applyMatrix n targets m amps).size = 2 ^ n ∧
      ∀ i < 2 ^ n, ∃ row values, m[targetBits n targets i]? = some row ∧
        values.map some = (List.range (2 ^ targets.length)).map (fun j =>
          amps[overwrite n targets i j]?) ∧
        (applyMatrix n targets m amps)[i]? = some (dot row values) := by
  have hbits := nodup_qubitBits hnd hlt
  refine ⟨by rw [applyMatrix_size, hsize], fun i hi => ?_⟩
  have hrow : targetBits n targets i < m.length := by rw [hm]; exact targetBits_lt n targets i
  refine ⟨m[targetBits n targets i], gathered n targets amps i, List.getElem?_eq_getElem hrow, ?_,
    ?_⟩
  · rw [gathered, List.map_map]
    refine List.map_congr_left fun j _ => ?_
    have hj : overwrite n targets i j < amps.size := by rw [hsize]; exact overwrite_lt hlt hi j
    simp [hj]
  · have hbase : overwrite n targets i 0 ∈ (List.range amps.size).filter (isBase n targets) :=
      List.mem_filter.mpr
        ⟨List.mem_range.mpr (by rw [hsize]; exact overwrite_lt hlt hi 0), isBase_overwrite i⟩
    rw [applyMatrix_eq_foldl, getElem?_foldl_applyAt hbits hm (List.nodup_range.filter _)
      (fun base h => (List.mem_filter.mp h).2) (by rwa [hsize]), if_pos hbase,
      List.getElem?_eq_getElem hrow, Option.map_some]

/-- The second target negated where the first one is set. -/
def negatedByFirst : Matrix Nat := Matrix.controlled [[0, 1], [1, 0]] 1

def levels : Array Nat := #[0, 1, 2, 3, 4, 5, 6, 7]

/-- The last qubit is the first target here. It is set at index 1, which gets what was at 5. -/
theorem negatedByFirst_applied : [2, 0].Nodup ∧ (∀ q ∈ [2, 0], q < 3) ∧
    negatedByFirst.length = 2 ^ [2, 0].length ∧ levels.size = 2 ^ 3 ∧
    (applyMatrix 3 [2, 0] negatedByFirst levels)[1]? = some 5 := by
  have hnd : [2, 0].Nodup := by decide
  have hlt : ∀ q ∈ [2, 0], q < 3 := by decide
  have hm : negatedByFirst.length = 2 ^ [2, 0].length := by decide
  have hsize : levels.size = 2 ^ 3 := by decide
  obtain ⟨row, values, hrow, hvalues, h⟩ :=
    (getElem?_applyMatrix hnd hlt hm hsize).2 1 (by decide)
  refine ⟨hnd, hlt, hm, hsize, ?_⟩
  have hrow' : row = [0, 0, 0, 1] := by
    rw [show negatedByFirst[targetBits 3 [2, 0] 1]? = some [0, 0, 0, 1] by decide] at hrow
    exact (Option.some.inj hrow).symm
  have hvalues' : values = [0, 4, 1, 5] := by
    rw [show (List.range (2 ^ [2, 0].length)).map (fun j => levels[overwrite 3 [2, 0] 1 j]?) =
      [0, 4, 1, 5].map some by decide] at hvalues
    exact List.map_injective_iff.mpr (Option.some_injective _) hvalues
  rw [h, hrow', hvalues']
  cbv

end QCircuit
