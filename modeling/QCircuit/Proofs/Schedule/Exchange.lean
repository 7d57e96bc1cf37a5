import Mathlib.Data.Fin.VecNotation
import Mathlib.Data.Fintype.Basic
import Mathlib.Data.List.FinRange
import Mathlib.Data.List.OfFn
import QCircuit.Proofs.Schedule.Blocks

/-!
Gates that share no qubit can be placed in any order.

A gate reads and writes the rows of its own qubits only, so two gates without a common qubit can
change places. An order in which gates that share a qubit keep their places relative to each other
is reached by taking its gates one by one to the front, each past gates that have no qubit of it.
A gate may name a qubit twice.
-/

namespace QCircuit

/-- Whether two gates have a qubit in common. -/
def Gate.Meets (g h : Gate) : Prop := ∃ q ∈ g.qubits, q ∈ h.qubits

instance (g h : Gate) : Decidable (g.Meets h) :=
  inferInstanceAs (Decidable (∃ q ∈ g.qubits, q ∈ h.qubits))

namespace Schedule

/-! ### The rows of a gate -/

/-- Two schedules have the same rows at some qubits. -/
def SameAt (qs : List Nat) (s t : Schedule) : Prop := ∀ q ∈ qs, s.rows[q]? = t.rows[q]?

/-- What is done to a row depends on this row only. -/
lemma getElem?_foldl_modify_congr {β : Type} (f : Nat × β → List Cell → List Cell)
    (ps : List (Nat × β)) {rows rows' : List (List Cell)} {k : Nat} (h : rows[k]? = rows'[k]?) :
    (ps.foldl (fun rows p => rows.modify p.1 (f p)) rows)[k]? =
      (ps.foldl (fun rows p => rows.modify p.1 (f p)) rows')[k]? := by
  induction ps generalizing rows rows' with
  | nil => exact h
  | cons p ps ih =>
    rw [List.foldl_cons, List.foldl_cons]
    refine ih ?_
    rw [List.getElem?_modify, List.getElem?_modify, h]

section Place

variable {s s' t t' : Schedule} {g : Gate} {slot slot' : Nat}

lemma SameAt.free {qs : List Nat} (h : SameAt qs s t) {q : Nat} (hq : q ∈ qs) :
    s.nextFree? q = t.nextFree? q := by
  rw [nextFree?, nextFree?, h q hq]

lemma SameAt.slotFor {qs : List Nat} (h : SameAt qs s t) : s.slotFor qs = t.slotFor qs := by
  have hmap : qs.map (fun q => (s.nextFree? q).getD 0) =
      qs.map (fun q => (t.nextFree? q).getD 0) :=
    List.map_congr_left fun q hq => by rw [h.free hq]
  rw [Schedule.slotFor, Schedule.slotFor, hmap]

lemma SameAt.ownerFor {qs : List Nat} (h : SameAt qs s t) (slot : Nat) :
    s.ownerFor qs slot = t.ownerFor qs slot :=
  findIdx_congr fun q hq => by rw [h.free hq]

lemma place_length (h : s.place g = .ok (s', slot)) : s'.rows.length = s.rows.length := by
  obtain ⟨-, -, -, hrows⟩ := place_ok h
  rw [hrows, List.length_modify, mark, length_foldl_modify]

/-- **A gate leaves all other rows alone.** -/
lemma place_frame (h : s.place g = .ok (s', slot)) {q : Nat} (hq : q ∉ g.qubits) :
    s'.rows[q]? = s.rows[q]? := by
  obtain ⟨⟨hpos, -⟩, -, -, hrows⟩ := place_ok h
  have hne : s.ownerRow g.qubits ≠ q :=
    fun hc => hq (hc ▸ s.ownerRow_mem (List.length_pos_iff.mp hpos))
  rw [hrows, List.getElem?_modify_ne _ _ hne, mark, getElem?_foldl_modify_of_notMem _ _ _ (by simpa)]

/-- **What a gate does to its rows depends on these rows only.** -/
lemma place_local (hs : s.place g = .ok (s', slot)) (ht : t.place g = .ok (t', slot'))
    (h : SameAt g.qubits s t) : SameAt g.qubits s' t' := by
  obtain ⟨-, -, rfl, hrows⟩ := place_ok hs
  obtain ⟨-, -, rfl, hrows'⟩ := place_ok ht
  have howner : s.ownerRow g.qubits = t.ownerRow g.qubits := by
    rw [ownerRow, ownerRow, h.slotFor, h.ownerFor]
  intro q hq
  rw [hrows, hrows', h.slotFor, h.ownerFor, howner, List.getElem?_modify, List.getElem?_modify,
    mark, mark, getElem?_foldl_modify_congr _ _ (h q hq)]

end Place

/-! ### Changing places -/

/-- **Two gates without a common qubit can change places.** -/
theorem place_swap {s s₁ s₂ : Schedule} {g h : Gate} {slot slot' : Nat} (hgh : ¬ g.Meets h)
    (h₁ : s.place g = .ok (s₁, slot)) (h₂ : s₁.place h = .ok (s₂, slot')) :
    ∃ t₁, s.place h = .ok (t₁, slot') ∧ t₁.place g = .ok (s₂, slot) := by
  obtain ⟨hfits, hin, hslot, -⟩ := place_ok h₁
  obtain ⟨hfits', hin', hslot', -⟩ := place_ok h₂
  rw [place_length h₁] at hin'
  obtain ⟨t₁, k, ht₁⟩ := perform_ok_of_fits (s := s) (c := .unitary h) hfits' hin'
  obtain ⟨t₂, l, ht₂⟩ := perform_ok_of_fits (s := t₁) (c := .unitary g) hfits
    (by rw [place_length ht₁]; exact hin)
  -- neither gate has touched the rows of the other
  have hh : SameAt h.qubits s s₁ := fun q hq => (place_frame h₁ fun hg => hgh ⟨q, hg, hq⟩).symm
  have hg : SameAt g.qubits s t₁ := fun q hq => (place_frame ht₁ fun hh => hgh ⟨q, hq, hh⟩).symm
  have hkl : k = slot' ∧ l = slot := by
    rw [perform_slot ht₁, perform_slot ht₂, hslot, hslot']
    exact ⟨hh.slotFor, hg.slotFor.symm⟩
  have hrows : t₂.rows = s₂.rows := by
    refine List.ext_getElem? fun q => ?_
    by_cases hqg : q ∈ g.qubits
    · have hqh : q ∉ h.qubits := fun hqh => hgh ⟨q, hqg, hqh⟩
      rw [place_frame h₂ hqh, place_local h₁ ht₂ hg q hqg]
    · rw [place_frame ht₂ hqg]
      by_cases hqh : q ∈ h.qubits
      · exact place_local ht₁ h₂ hh q hqh
      · rw [place_frame ht₁ hqh, place_frame h₂ hqh, place_frame h₁ hqg]
  obtain ⟨rfl, rfl⟩ := hkl
  obtain rfl : t₂ = s₂ := congrArg Schedule.mk hrows
  exact ⟨t₁, ht₁, ht₂⟩

/-- Places gates one after the other, all of which must be accepted. -/
def placeAll (s : Schedule) (gs : List Gate) : Except CompileError Schedule :=
  s.performAll (gs.map .unitary)

lemma placeAll_cons {s s' : Schedule} {g : Gate} {gs : List Gate} :
    s.placeAll (g :: gs) = .ok s' ↔
      ∃ s₁ slot, s.place g = .ok (s₁, slot) ∧ s₁.placeAll gs = .ok s' := performAll_cons_ok

/-- A gate can be taken to the front past gates that have no qubit of it. -/
lemma placeAll_front {s s' : Schedule} {g : Gate} {pre post : List Gate}
    (hpre : ∀ h ∈ pre, ¬ h.Meets g) (h : s.placeAll (pre ++ g :: post) = .ok s') :
    s.placeAll (g :: (pre ++ post)) = .ok s' := by
  induction pre generalizing s with
  | nil => exact h
  | cons a pre ih =>
    obtain ⟨s₁, slot, ha, h⟩ := placeAll_cons.mp h
    obtain ⟨s₂, slot', hg, h⟩ :=
      placeAll_cons.mp (ih (fun b hb => hpre b (List.mem_cons_of_mem _ hb)) h)
    obtain ⟨t₁, hg, ha⟩ := place_swap (hpre a List.mem_cons_self) ha hg
    exact placeAll_cons.mpr ⟨t₁, slot', hg, placeAll_cons.mpr ⟨s₂, slot, ha, h⟩⟩

/-- Gates by their numbers: the first order is that of the numbers, and in the second one gates that
meet have ascending numbers. -/
lemma placeAll_perm {n : Nat} {gate : Fin n → Gate} {s s' : Schedule} {xs ys : List (Fin n)}
    (hperm : xs.Perm ys) (hasc : xs.Pairwise (· < ·))
    (hkeep : ys.Pairwise fun i j => (gate i).Meets (gate j) → i < j)
    (h : s.placeAll (xs.map gate) = .ok s') : s.placeAll (ys.map gate) = .ok s' := by
  induction ys generalizing xs s with
  | nil => rwa [hperm.eq_nil] at h
  | cons y ys ih =>
    obtain ⟨hfirst, hkeep⟩ := List.pairwise_cons.mp hkeep
    obtain ⟨pre, post, rfl⟩ := List.append_of_mem (hperm.mem_iff.mpr List.mem_cons_self)
    have hrest : (pre ++ post).Perm ys := (List.perm_middle.symm.trans hperm).cons_inv
    -- what stands before `y` in the order of the numbers comes after it in the other one
    have hpre : ∀ g ∈ pre.map gate, ¬ g.Meets (gate y) := by
      rintro g hg ⟨q, hq, hqy⟩
      obtain ⟨x, hx, rfl⟩ := List.mem_map.mp hg
      have hxy : x < y := (List.pairwise_append.mp hasc).2.2 x hx y List.mem_cons_self
      have hyx : y < x :=
        hfirst x (hrest.mem_iff.mp (List.mem_append_left _ hx)) ⟨q, hqy, hq⟩
      exact absurd hyx (lt_asymm hxy)
    rw [List.map_append, List.map_cons] at h
    obtain ⟨s₁, slot, hy, h⟩ := placeAll_cons.mp (placeAll_front hpre h)
    rw [← List.map_append] at h
    have hsub : (pre ++ post).Sublist (pre ++ y :: post) :=
      (List.sublist_cons_self y post).append_left pre
    exact placeAll_cons.mpr ⟨s₁, slot, hy, ih hrest (hasc.sublist hsub) hkeep h⟩

/-! ### Orders that keep what depends on each other -/

/-- The gates in another order: gate `σ i` comes at place `i`. -/
def reorder (gs : List Gate) (σ : Equiv.Perm (Fin gs.length)) : List Gate :=
  List.ofFn fun i => gs.get (σ i)

/-- Gates that share a qubit stay in their order. -/
def KeepsOrder (gs : List Gate) (σ : Equiv.Perm (Fin gs.length)) : Prop :=
  ∀ i j, i < j → (gs.get (σ i)).Meets (gs.get (σ j)) → σ i < σ j

instance (gs : List Gate) (σ : Equiv.Perm (Fin gs.length)) : Decidable (KeepsOrder gs σ) :=
  inferInstanceAs (Decidable (∀ i j, i < j → (gs.get (σ i)).Meets (gs.get (σ j)) → σ i < σ j))

/-- **Independent gates commute in a schedule.** If gates are all accepted, then so they are in every
order in which those that share a qubit stay as they are, and the schedule is the same, with the
circuit that it gives. -/
theorem reorder_placeAll (n : Nat) (gs : List Gate) (σ : Equiv.Perm (Fin gs.length)) {s : Schedule}
    (hσ : KeepsOrder gs σ) (h : (empty n).placeAll gs = .ok s) :
    (empty n).placeAll (reorder gs σ) = .ok s ∧
      ∀ clbits, (((empty n).placeAll (reorder gs σ)) >>= fun t => t.flatten clbits) =
        (((empty n).placeAll gs) >>= fun t => t.flatten clbits) := by
  have hall : (List.finRange gs.length).map gs.get = gs := List.map_get_finRange gs
  have hmap : (List.ofFn σ).map gs.get = reorder gs σ := by
    rw [List.map_ofFn]
    rfl
  have hperm : (List.finRange gs.length).Perm (List.ofFn σ) := by
    refine (List.perm_ext_iff_of_nodup (List.nodup_finRange _)
      (List.nodup_ofFn.mpr σ.injective)).mpr fun i => ?_
    simp [List.mem_ofFn, σ.surjective i]
  have hreorder : (empty n).placeAll (reorder gs σ) = .ok s := by
    rw [← hmap]
    refine placeAll_perm hperm (List.pairwise_lt_finRange _) ?_ (by rwa [hall])
    exact List.pairwise_ofFn.mpr hσ
  exact ⟨hreorder, fun clbits => by rw [hreorder, h]⟩

/-- Two gates on the first two qubits and two on the third; the last one names its qubit twice. -/
def interleaved : List Gate :=
  [{ kind := .standard .h, qubits := [0] }, { kind := .standard .cnot, qubits := [0, 1] },
    { kind := .standard .x, qubits := [2] }, { kind := .standard .cz, qubits := [2, 2] }]

/-- The third gate goes first, and the second one last. -/
def interleavedOrder : Equiv.Perm (Fin interleaved.length) :=
  show Equiv.Perm (Fin 4) from ⟨![2, 0, 3, 1], ![1, 3, 0, 2], by decide, by decide⟩

/-- In both orders the gates end in the same slots: the second one behind the first, and the last one
behind the third and the mark that it leaves itself. -/
theorem interleaved_reordered :
    KeepsOrder interleaved interleavedOrder ∧
      (reorder interleaved interleavedOrder).map (·.qubits) = [[2], [0], [2, 2], [0, 1]] ∧
      ∃ s, (empty 3).placeAll interleaved = .ok s ∧
        (empty 3).placeAll (reorder interleaved interleavedOrder) = .ok s ∧
        s.rows = [[.gate { kind := .standard .h, qubits := [0] },
            .gate { kind := .standard .cnot, qubits := [0, 1] }],
          [.gate (.identity 1), .reserved],
          [.gate { kind := .standard .x, qubits := [2] }, .reserved,
            .gate { kind := .standard .cz, qubits := [2, 2] }]] := by
  have hkeeps : KeepsOrder interleaved interleavedOrder := by decide
  exact ⟨hkeeps, rfl, _, rfl, (reorder_placeAll 3 interleaved interleavedOrder hkeeps rfl).1, rfl⟩

end Schedule
end QCircuit
