import QCircuit.Proofs.Compile.Numbering

/-!
Registers declared one after the other.

Whatever the registers and their order, the index of a bit is the place where it is listed last, among
all the bits that are listed. So two bits never share an index. The places where a bit was listed
before it was listed again are the indices that no bit has.
-/

namespace QCircuit.DenseMap

/-- The bits that registers list, one register after the other. -/
def listed (rs : List Register) : List Nat := rs.flatMap Register.bits

/-- The map once all registers are declared. -/
def declareAll (rs : List Register) : DenseMap := rs.foldl declare {}

/-- The bit stands at this place and at none behind it. -/
def LastAt (bits : List Nat) (b d : Nat) : Prop :=
  bits[d]? = some b ∧ ∀ k, d < k → bits[k]? ≠ some b

lemma declare_ofList (bits : List Nat) (r : Register) :
    (ofList bits).declare r = ofList (bits ++ r.bits) := by
  rw [declare, ofList, ofList, List.foldl_append]

/-- Declaring registers is numbering the bits that they list. -/
lemma declareAll_eq (rs : List Register) : declareAll rs = ofList (listed rs) := by
  induction rs using List.reverseRecOn with
  | nil => rfl
  | append_singleton rs r ih =>
    have hstep : declareAll (rs ++ [r]) = (declareAll rs).declare r := by simp [declareAll]
    rw [hstep, ih, declare_ofList, listed, listed, List.flatMap_append, List.flatMap_singleton]

section OfList

variable {bits : List Nat}

lemma lt_length_of_get? {b d : Nat} (h : (ofList bits).get? b = some d) : d < bits.length :=
  (List.getElem?_eq_some_iff.mp (get?_ofList_last.mp h).1).1

lemma isSome_get?_ofList {b : Nat} : ((ofList bits).get? b).isSome ↔ b ∈ bits := by
  rw [Option.isSome_iff_exists]
  exact ⟨fun ⟨_, hd⟩ => List.mem_of_getElem? (get?_ofList_last.mp hd).1, exists_get?_ofList⟩

/-- An index tells the bit: it is the one that stands there. -/
lemma get?_ofList_injective {b c d : Nat} (hb : (ofList bits).get? b = some d)
    (hc : (ofList bits).get? c = some d) : b = c :=
  Option.some.inj ((get?_ofList_last.mp hb).1.symm.trans (get?_ofList_last.mp hc).1)

/-- **An index is lost if and only if a bit is listed twice.** -/
theorem forall_used_iff_nodup :
    (∀ d < bits.length, ∃ b, (ofList bits).get? b = some d) ↔ bits.Nodup := by
  constructor
  · intro hused
    rw [List.nodup_iff_getElem?_ne_getElem?]
    intro i j hij hj heq
    -- the bit with index `i` stands there, and nowhere behind
    obtain ⟨b, hb⟩ := hused i (hij.trans hj)
    obtain ⟨hi, hlast⟩ := get?_ofList_last.mp hb
    exact hlast j hij (heq.symm.trans hi)
  · intro hnd d hd
    exact ⟨bits[d], (get?_ofList hnd).mpr (List.getElem?_eq_getElem hd)⟩

end OfList

/-- **What declared registers number.** There are as many indices as bits listed, and the index of a
bit is its last place among them. So exactly the listed bits have an index, each its own, and every
index belongs to a bit if and only if no bit is listed twice. -/
theorem declareAll_indices (rs : List Register) :
    (declareAll rs).size = (listed rs).length ∧
      (∀ b d, (declareAll rs).get? b = some d ↔ LastAt (listed rs) b d) ∧
      (∀ b, ((declareAll rs).get? b).isSome ↔ b ∈ listed rs) ∧
      (∀ b d, (declareAll rs).get? b = some d → d < (declareAll rs).size) ∧
      (∀ b c d, (declareAll rs).get? b = some d → (declareAll rs).get? c = some d → b = c) ∧
      ((∀ d < (declareAll rs).size, ∃ b, (declareAll rs).get? b = some d) ↔
        (listed rs).Nodup) := by
  rw [declareAll_eq, size_ofList]
  exact ⟨rfl, fun _ _ => get?_ofList_last, fun _ => isSome_get?_ofList,
    fun _ _ => lt_length_of_get?, fun _ _ _ => get?_ofList_injective, forall_used_iff_nodup⟩

/-- The second register lists a bit of the first one again, whose index 1 is lost. -/
example : let m := declareAll [⟨.qubit, 5, 3⟩, ⟨.qubit, 6, 1⟩, ⟨.qubit, 0, 1⟩]
    m.size = 5 ∧ [5, 6, 7, 0, 1].map m.get? = [some 0, some 3, some 2, some 4, none] := by
  decide

end QCircuit.DenseMap
