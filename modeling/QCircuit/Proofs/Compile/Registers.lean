import QCircuit.Proofs.Compile.Numbering
import QCircuit.Proofs.Graph.Bodies
import QCircuit.Proofs.Number.Digits

/-!
What a register declares.

Adding a register brings an initial vertex for each bit and makes it the last user of this bit; the
name of the register says which bits these are, and is read back as written. The bits it lists are
the same, except for the greatest word of 32 bits, which is never among them.
-/

namespace QCircuit

namespace Register

open Decimal QCircuit.Graph

/-! ### Names -/

/-- A number is read back from its digits. -/
lemma number?_digitsOf {n bound : Nat} (hn : n < bound) :
    Text.number? bound (String.ofList (digitsOf n)) = some n := by
  have hdigits : Text.digits? bound (digitsOf n) = some n :=
    Text.digits?_eq_some.mpr ⟨digitsOf_ne_nil n, fun _ => isDigit_of_mem_digitsOf,
      by rwa [ofDigits_digitsOf], ofDigits_digitsOf n⟩
  rw [Text.number?, String.toList_ofList]
  split
  · next cs hcs =>
    have hplus : '+'.isDigit := isDigit_of_mem_digitsOf (n := n) (hcs ▸ List.mem_cons_self)
    exact absurd hplus (by decide)
  · exact hdigits

lemma toList_name (r : Register) :
    r.name.toList = r.kind.letter :: (digitsOf r.start ++ '_' :: digitsOf r.count) := by
  simp [name, toString, digitsOf]

/-- **A name is read back as the register that it names.** -/
theorem parse?_name {r : Register} (hstart : r.start < 4294967296) (hcount : r.count < 4294967296) :
    parse? r.name = some r := by
  have hdigit : ∀ c ∈ digitsOf r.start, decide (c ≠ '_') = true := by
    intro c hc
    have hc := isDigit_of_mem_digitsOf hc
    refine decide_eq_true ?_
    rintro rfl
    exact absurd hc (by decide)
  have htake : (digitsOf r.start ++ '_' :: digitsOf r.count).takeWhile (· ≠ '_') =
      digitsOf r.start := by
    rw [List.takeWhile_append_of_pos hdigit, List.takeWhile_cons_of_neg (by decide),
      List.append_nil]
  have hdrop : (digitsOf r.start ++ '_' :: digitsOf r.count).dropWhile (· ≠ '_') =
      '_' :: digitsOf r.count := by
    rw [List.dropWhile_append_of_pos hdigit, List.dropWhile_cons_of_neg (by decide)]
  obtain ⟨kind, start, count⟩ := r
  cases kind <;>
    simp only [parse?, toList_name, htake, hdrop, number?_digitsOf hstart, number?_digitsOf hcount,
      BitKind.letter] <;> rfl

/-! ### Declared bits -/

/-- The bits of a register are different ones, as long as it has no more than there are ids. -/
lemma leaf_inj {r : Register} (hcount : r.count < 4294967296) {i j : Nat} (hi : i < r.count)
    (hj : j < r.count) (h : r.leaf i = r.leaf j) : i = j := by
  have hid : r.bit i = r.bit j := congrArg Leaf.id h
  unfold bit at hid
  omega

/-- Each bit of a register has its own initial vertex as its last user. -/
lemma lookup_leaf {r : Register} (hcount : r.count < 4294967296) {g : Graph} {i : Nat}
    (hi : i < r.count) :
    (r.addTo g).frontier.lookup (r.leaf i) = some (g.size + 1 + i) := by
  have hrun : ∀ n ≤ r.count, i < n → (((List.range n).map fun j =>
      (r.leaf j, g.size + 1 + j)).reverse).lookup (r.leaf i) = some (g.size + 1 + i) := by
    intro n
    induction n with
    | zero => exact fun _ h => absurd h (Nat.not_lt_zero i)
    | succ n ih =>
      intro hn h
      rw [List.range_succ, List.map_append, List.reverse_append, List.map_singleton,
        List.reverse_singleton, List.singleton_append, List.lookup_cons]
      rcases Nat.lt_succ_iff_lt_or_eq.mp h with hlt | rfl
      · have hne : r.leaf i ≠ r.leaf n := fun h => hlt.ne (leaf_inj hcount hi hn h)
        rw [beq_eq_false_iff_ne.mpr hne]
        exact ih (Nat.le_of_succ_le hn) hlt
      · rw [beq_self_eq_true]
  rw [addTo, List.lookup_append]
  exact congrArg (Option.or · _) (hrun r.count (Nat.le_refl _) hi)

/-- What adding a register brings: its vertex, by whose name it is known, and for each of its bits
an initial vertex that is the last user of the bit. -/
structure Added (r : Register) (g g' : Graph) (reg : Nat) : Prop where
  named : ∃ s, g'.vertex? reg = some (.register s) ∧ parse? s.name = some r
  size : g'.size = reg + 1 + r.count
  init : ∀ i < r.count, g'.vertex? (reg + 1 + i) = some (.init r.kind) ∧
    g'.frontier.lookup (r.leaf i) = some (reg + 1 + i)
  others : ∀ l : Leaf, (∀ i < r.count, l ≠ r.leaf i) →
    g'.frontier.lookup l = g.frontier.lookup l

lemma addRegister_added {r : Register} (hstart : r.start < 4294967296)
    (hcount : r.count < 4294967296) (g : Graph) :
    r.Added g (g.addRegister r).1 (g.addRegister r).2 := by
  rw [Document.addRegister_eq]
  exact ⟨⟨r, r.vertex_register g, parse?_name hstart hcount⟩, r.size_addTo g,
    fun i hi => ⟨r.vertex_init g hi, lookup_leaf hcount hi⟩, fun l hl => lookup_of_ne hl⟩

/-- The bits that a register lists are those that it declares, without the greatest word. -/
lemma bits_eq_filter {r : Register} (hstart : r.start < 4294967296)
    (hend : r.start + r.count ≤ 4294967296) :
    r.bits = (List.range' r.start r.count).filter (· ≠ 4294967295) := by
  rcases hend.lt_or_eq with hlt | heq
  · rw [bits_eq hlt, List.filter_eq_self.mpr]
    intro b hb
    obtain ⟨-, hb⟩ := List.mem_range'_1.mp hb
    exact decide_eq_true (by omega)
  · obtain ⟨n, hn⟩ : ∃ n, r.count = n + 1 := ⟨r.count - 1, by omega⟩
    have hbits : r.bits = List.range' r.start n := by
      rw [bits]
      congr 1
      omega
    have hlast : r.start + n = 4294967295 := by omega
    rw [hbits, hn, List.range'_concat, Nat.one_mul, hlast, List.filter_append,
      List.filter_eq_self.mpr, List.filter_cons_of_neg (by decide), List.filter_nil,
      List.append_nil]
    intro b hb
    obtain ⟨-, hb⟩ := List.mem_range'_1.mp hb
    exact decide_eq_true (by omega)

/-- **When a register lists the bits that it declares.** Its name is read back as written and each
declared bit gets its initial vertex; of these bits only the greatest word is not listed, so all of
them are if and only if they end before it. -/
theorem bits_listed_iff {r : Register} (hstart : r.start < 4294967296)
    (hcount : r.count < 4294967296) (hend : r.start + r.count ≤ 4294967296) (g : Graph) :
    r.Added g (g.addRegister r).1 (g.addRegister r).2 ∧
      r.bits = (List.range' r.start r.count).filter (· ≠ 4294967295) ∧
      (r.bits = List.range' r.start r.count ↔ r.start + r.count < 4294967296) := by
  have hbits := bits_eq_filter hstart hend
  refine ⟨addRegister_added hstart hcount g, hbits, fun h => ?_, bits_eq⟩
  by_contra hge
  have hmem : 4294967295 ∈ r.bits := by
    rw [h, List.mem_range'_1]
    omega
  rw [hbits] at hmem
  exact absurd rfl (of_decide_eq_true (List.mem_filter.mp hmem).2)

/-! ### The greatest words -/

/-- The bits up to the last but one. -/
def beforeLast : Register := ⟨.clbit, 4294967290, 5⟩

/-- They are all listed. -/
theorem beforeLast_listed :
    (beforeLast.start < 4294967296 ∧ beforeLast.count < 4294967296 ∧
        beforeLast.start + beforeLast.count ≤ 4294967296) ∧
      beforeLast.Added .empty (Graph.empty.addRegister beforeLast).1
        (Graph.empty.addRegister beforeLast).2 ∧
      beforeLast.bits = [4294967290, 4294967291, 4294967292, 4294967293, 4294967294] := by
  have h : beforeLast.start < 4294967296 ∧ beforeLast.count < 4294967296 ∧
      beforeLast.start + beforeLast.count ≤ 4294967296 := by decide
  obtain ⟨hadded, -, hiff⟩ := bits_listed_iff h.1 h.2.1 h.2.2 .empty
  exact ⟨h, hadded, hiff.mpr (by decide)⟩

/-- The last bit of all. -/
def last : Register := ⟨.qubit, 4294967295, 1⟩

/-- It is declared and gets its initial vertex, and it is not listed. -/
theorem last_unlisted : last.start + last.count ≤ 4294967296 ∧ parse? last.name = some last ∧
    (Graph.empty.addRegister last).1.vertex? 1 = some .initQubit ∧
      (Graph.empty.addRegister last).1.frontier.lookup ⟨.global, .qubit, 4294967295⟩ = some 1 ∧
        last.bits = [] ∧ last.bits ≠ List.range' last.start last.count :=
  ⟨by decide, parse?_name (by decide) (by decide), rfl, rfl, rfl, by decide⟩

end Register

end QCircuit
