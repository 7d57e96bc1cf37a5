import Mathlib.Algebra.GroupWithZero.Nat
import QCircuit.Proofs.Schedule.Runs

/-!
Calls that keep to a block of rows.

A block of rows that no call has touched yet is level: barriers elsewhere have filled all its rows
up to one slot. Calls that keep to the block then do in it what they do on an empty schedule, only
later by that slot. What other calls do afterwards fills its rows up, which changes no cell. So
calls for several blocks, one block after the other, give the circuits of the blocks side by side.
-/

namespace QCircuit

/-- A number of qubits and of clbits: the size of a block, or how far it is moved. -/
structure Extent where
  qubits : Nat
  clbits : Nat
  deriving DecidableEq, Repr

namespace Extent

instance : Zero Extent := ⟨⟨0, 0⟩⟩

instance : Add Extent := ⟨fun d e => ⟨d.qubits + e.qubits, d.clbits + e.clbits⟩⟩

@[simp] lemma qubits_zero : (0 : Extent).qubits = 0 := rfl

@[simp] lemma qubits_add (d e : Extent) : (d + e).qubits = d.qubits + e.qubits := rfl

/-- All bits of the blocks together. -/
def total (sizes : List Extent) : Extent :=
  ⟨(sizes.map (·.qubits)).sum, (sizes.map (·.clbits)).sum⟩

/-- Where block `k` begins: after the bits of the blocks before it. -/
def before (sizes : List Extent) (k : Nat) : Extent := total (sizes.take k)

lemma total_cons (e : Extent) (sizes : List Extent) : total (e :: sizes) = e + total sizes := rfl

lemma before_succ (e : Extent) (sizes : List Extent) (k : Nat) :
    before (e :: sizes) (k + 1) = e + before sizes k := rfl

lemma add_assoc (d e f : Extent) : d + e + f = d + (e + f) := by
  cases d; cases e; cases f
  simp only [HAdd.hAdd, Add.add, Extent.mk.injEq]
  exact ⟨Nat.add_assoc .., Nat.add_assoc ..⟩

lemma zero_add (d : Extent) : 0 + d = d := by
  cases d
  simp only [HAdd.hAdd, Add.add, Extent.mk.injEq]
  exact ⟨Nat.zero_add _, Nat.zero_add _⟩

end Extent

/-! ### Raising bits -/

/-- The condition on the bits of a block. -/
def Condition.raise (d : Extent) (c : Condition) : Condition :=
  { c with clbits := c.clbits.map (d.clbits + ·) }

/-- The gate on the bits of a block. -/
def Gate.raise (d : Extent) (g : Gate) : Gate :=
  { g with
    qubits := g.qubits.map (d.qubits + ·)
    clbit := g.clbit.map (d.clbits + ·)
    condition := g.condition.map (·.raise d) }

@[simp] lemma Gate.qubits_raise (d : Extent) (g : Gate) :
    (g.raise d).qubits = g.qubits.map (d.qubits + ·) := rfl

@[simp] lemma Gate.isIdentity_raise (d : Extent) (g : Gate) :
    (g.raise d).isIdentity = g.isIdentity := rfl

@[simp] lemma Gate.isMeasure_raise (d : Extent) (g : Gate) :
    (g.raise d).isMeasure = g.isMeasure := rfl

/-- The cell on the bits of a block. -/
def Cell.raise (d : Extent) : Cell → Cell
  | .gate g => .gate (g.raise d)
  | .reserved => .reserved

lemma Cell.isMeasure_raise (d : Extent) (c : Cell) : (c.raise d).isMeasure = c.isMeasure := by
  cases c <;> rfl

lemma Cell.active_raise (d : Extent) (c : Cell) :
    (c.raise d).active = c.active.map (Gate.raise d) := by
  cases c with
  | reserved => rfl
  | gate g => by_cases hid : g.isIdentity = true <;> simp [Cell.raise, Cell.active, hid]

namespace Schedule

lemma raise_idle (d : Extent) (q : Nat) : (idle q).raise d = idle (d.qubits + q) := rfl

namespace Call

/-- The call on the bits of a block. -/
def raise (d : Extent) : Call → Call
  | .unitary g => .unitary (g.raise d)
  | .measurement targets condition =>
    .measurement (targets.map fun p => (d.qubits + p.1, d.clbits + p.2))
      (condition.map (·.raise d))

@[simp] lemma qubits_raise (d : Extent) (c : Call) :
    (c.raise d).qubits = c.qubits.map (d.qubits + ·) := by
  cases c <;> simp [raise, qubits, Function.comp_def]

@[simp] lemma isMeasurement_raise (d : Extent) (c : Call) :
    (c.raise d).isMeasurement = c.isMeasurement := by
  cases c <;> rfl

lemma mem_qubits_raise {d : Extent} {c : Call} {q : Nat} :
    d.qubits + q ∈ (c.raise d).qubits ↔ q ∈ c.qubits := by
  simp

lemma nodup_raise {d : Extent} {c : Call} (h : c.qubits.Nodup) : (c.raise d).qubits.Nodup := by
  rw [qubits_raise]
  exact h.map fun a b hab => Nat.add_left_cancel hab

/-- A gate acts on one to three qubits, and a measurement on one at least. -/
def Fits : Call → Prop
  | .unitary g => 0 < g.qubits.length ∧ g.qubits.length ≤ 3
  | .measurement targets _ => targets ≠ []

lemma fits_raise {d : Extent} {c : Call} : (c.raise d).Fits ↔ c.Fits := by
  cases c <;> simp [raise, Fits]

end Call

/-! ### Calls that succeed -/

lemma outside?_of_lt {s : Schedule} {qs : List Nat} (h : ∀ q ∈ qs, q < s.rows.length) :
    s.outside? qs = none := by
  refine List.find?_eq_none.mpr fun q hq => ?_
  simpa using h q hq

/-- A call on rows that exist succeeds, if the number of its qubits is right. -/
lemma perform_ok_of_fits {s : Schedule} {c : Call} (hfits : c.Fits)
    (hin : ∀ q ∈ c.qubits, q < s.rows.length) : ∃ s' slot, s.perform c = .ok (s', slot) := by
  cases c with
  | unitary g =>
    have harity : ¬(g.qubits.length = 0 ∨ 3 < g.qubits.length) := by
      obtain ⟨h₁, h₂⟩ := hfits
      omega
    have hout : s.outside? g.qubits = none := outside?_of_lt hin
    rw [perform, place, if_neg harity, hout]
    exact ⟨_, _, rfl⟩
  | measurement targets condition =>
    have hout : s.outside? (targets.map (·.1)) = none := outside?_of_lt hin
    simp [perform, measure, hout]

lemma fits_of_perform {s s' : Schedule} {c : Call} {slot : Nat}
    (h : s.perform c = .ok (s', slot)) (hne : c.isMeasurement → c.qubits ≠ []) : c.Fits := by
  cases c with
  | unitary g => exact (place_ok h).1
  | measurement targets condition => exact fun hnil => hne rfl (by simp [Call.qubits, hnil])

/-- What is asked of the calls of a block with `n` rows. -/
structure Call.Keeps (n : Nat) (c : Call) : Prop where
  nodup : c.qubits.Nodup
  inRange : ∀ q ∈ c.qubits, q < n
  some : c.isMeasurement → c.qubits ≠ []

/-- **Calls on rows that exist succeed exactly when the numbers of their qubits are right.** -/
theorem performAll_ok_iff {s : Schedule} {cs : List Call}
    (hcs : ∀ c ∈ cs, c.Keeps s.rows.length) :
    (∃ s', s.performAll cs = .ok s') ↔ ∀ c ∈ cs, c.Fits := by
  induction cs generalizing s with
  | nil => simp
  | cons c cs ih =>
    have hc := hcs c List.mem_cons_self
    have hrest : ∀ {s₁ slot}, s.perform c = .ok (s₁, slot) →
        ((∃ s', s₁.performAll cs = .ok s') ↔ ∀ c ∈ cs, c.Fits) := by
      intro s₁ slot h₁
      refine ih fun e he => ?_
      rw [length_perform h₁]
      exact hcs e (List.mem_cons_of_mem _ he)
    simp only [performAll_cons_ok, List.mem_cons, forall_eq_or_imp]
    constructor
    · rintro ⟨s', s₁, slot, h₁, h₂⟩
      exact ⟨fits_of_perform h₁ hc.some, (hrest h₁).mp ⟨s', h₂⟩⟩
    · rintro ⟨hfits, hall⟩
      obtain ⟨s₁, slot, h₁⟩ := perform_ok_of_fits hfits hc.inRange
      obtain ⟨s', h₂⟩ := (hrest h₁).mpr hall
      exact ⟨s', s₁, slot, h₁, h₂⟩

/-! ### A block of a schedule -/

/-- The rows of `w` from `d.qubits` on show the cells of `s`, later by `base` slots. -/
structure Shows (d : Extent) (base : Nat) (s w : Schedule) : Prop where
  fits : d.qubits + s.rows.length ≤ w.rows.length
  cellAt : ∀ q < s.rows.length, ∀ t, w.cellAt (d.qubits + q) (base + t) = (s.cellAt q t).raise d
  idle : ∀ q < s.rows.length, ∀ t < base, w.cellAt (d.qubits + q) t = idle (d.qubits + q)

/-- The block shows `s`, and its rows are as long as those of `s`. -/
structure Mirrors (d : Extent) (base : Nat) (s w : Schedule) : Prop extends Shows d base s w where
  free : ∀ q < s.rows.length, w.free (d.qubits + q) = base + s.free q

lemma findIdx_congr {P Q : Nat → Bool} {qs : List Nat} (h : ∀ q ∈ qs, P q = Q q) :
    qs.findIdx P = qs.findIdx Q := by
  induction qs with
  | nil => rfl
  | cons q qs ih =>
    rw [List.findIdx_cons, List.findIdx_cons, h q List.mem_cons_self,
      ih fun r hr => h r (List.mem_cons_of_mem _ hr)]

section Slots

variable {d : Extent} {base : Nat} {s w : Schedule} (h : Mirrors d base s w) {qs : List Nat}
  (hin : ∀ q ∈ qs, q < s.rows.length) (hne : qs ≠ [])
include h hin hne

lemma Mirrors.slotFor : w.slotFor (qs.map (d.qubits + ·)) = base + s.slotFor qs := by
  have hne' : qs.map (d.qubits + ·) ≠ [] := by simpa using hne
  obtain ⟨q, hq, hfree⟩ := s.slotFor_attained hne
  obtain ⟨r, hr, hfree'⟩ := w.slotFor_attained hne'
  obtain ⟨q', hq', rfl⟩ := List.mem_map.mp hr
  have h₁ := free_le_slotFor s hq'
  have h₂ := free_le_slotFor w (List.mem_map_of_mem (f := (d.qubits + ·)) hq)
  have h₃ := h.free q (hin q hq)
  have h₄ := h.free q' (hin q' hq')
  omega

lemma Mirrors.ownerRow :
    w.ownerRow (qs.map (d.qubits + ·)) = d.qubits + s.ownerRow qs := by
  have howner : w.ownerFor (qs.map (d.qubits + ·)) (w.slotFor (qs.map (d.qubits + ·))) =
      s.ownerFor qs (s.slotFor qs) := by
    rw [h.slotFor hin hne, ownerFor, ownerFor, List.findIdx_map]
    refine findIdx_congr fun q hq => ?_
    have hfree := h.free q (hin q hq)
    simp only [Schedule.free] at hfree
    simp [hfree]
  have hne' : qs.map (d.qubits + ·) ≠ [] := by simpa using hne
  have hw := w.getElem?_ownerFor hne'
  rw [howner, List.getElem?_map, s.getElem?_ownerFor hne] at hw
  exact (Option.some.inj hw).symm

end Slots

lemma lookup_raise (d : Extent) (targets : List (Nat × Nat)) (q : Nat) :
    (targets.map fun p => (d.qubits + p.1, d.clbits + p.2)).lookup (d.qubits + q) =
      (targets.lookup q).map (d.clbits + ·) := by
  induction targets with
  | nil => rfl
  | cons p targets ih =>
    by_cases hq : q = p.1
    · rw [List.map_cons, List.lookup_cons, List.lookup_cons, hq, beq_self_eq_true,
        beq_self_eq_true]
      rfl
    · have hne : d.qubits + q ≠ d.qubits + p.1 := by omega
      rw [List.map_cons, List.lookup_cons, List.lookup_cons, beq_eq_false_iff_ne.mpr hne,
        beq_eq_false_iff_ne.mpr hq]
      exact ih

/-- The cells of a call in the block. -/
lemma Mirrors.callCell {d : Extent} {base : Nat} {s w : Schedule} (h : Mirrors d base s w)
    {c : Call} (hin : ∀ q ∈ c.qubits, q < s.rows.length) {q : Nat} (hq : q ∈ c.qubits) :
    w.callCell (c.raise d) (d.qubits + q) = (s.callCell c q).raise d := by
  cases c with
  | unitary g =>
    have howner := h.ownerRow hin (List.ne_nil_of_mem hq)
    simp only [Call.qubits] at howner
    simp only [Call.raise, Schedule.callCell, unitaryCell, Gate.qubits_raise, howner,
      Nat.add_left_cancel_iff]
    split <;> rfl
  | measurement targets condition =>
    simp only [Call.raise, Schedule.callCell, measureCell, lookup_raise]
    cases targets.lookup q <;> rfl

/-- **One call in the block is one call on the empty schedule's copy.** -/
theorem Mirrors.perform {d : Extent} {base : Nat} {s s' w w' : Schedule} {c : Call}
    {slot slot' : Nat} (h : Mirrors d base s w) (hs : s.perform c = .ok (s', slot))
    (hw : w.perform (c.raise d) = .ok (w', slot')) (hc : c.Keeps s.rows.length) :
    Mirrors d base s' w' := by
  have hne : c.qubits ≠ [] := by
    cases hm : c.isMeasurement with
    | true => exact hc.some hm
    | false => exact perform_qubits_ne_nil hs hm
  have fs := perform_fills hs hc.nodup
  have fw := perform_fills hw (Call.nodup_raise hc.nodup)
  obtain rfl : slot' = base + slot := by
    rw [perform_slot hw, perform_slot hs, Call.qubits_raise]
    exact h.slotFor hc.inRange hne
  have hlt : ∀ q < s'.rows.length, q < s.rows.length := fun q hq => fs.length ▸ hq
  refine ⟨⟨by rw [fs.length, fw.length]; exact h.fits, fun q hq t => ?_, fun q hq t ht => ?_⟩,
    fun q hq => ?_⟩
  · rw [fw.cellAt, fs.cellAt]
    by_cases hcell : q ∈ c.qubits ∧ t = slot
    · rw [if_pos hcell, if_pos ⟨Call.mem_qubits_raise.mpr hcell.1, by rw [hcell.2]⟩,
        h.callCell hc.inRange hcell.1]
    · rw [if_neg hcell, h.cellAt q (hlt q hq), if_neg]
      exact fun hcell' => hcell ⟨Call.mem_qubits_raise.mp hcell'.1, by omega⟩
  · rw [fw.cellAt, if_neg fun hcell => by omega]
    exact h.idle q (hlt q hq) t ht
  · have hq := hlt q hq
    by_cases hmem : q ∈ c.qubits
    · rw [fw.free_mem _ (Call.mem_qubits_raise.mpr hmem), fs.free_mem q hmem]
      omega
    · have hrow : d.qubits + q < w.rows.length := Nat.lt_of_lt_of_le (by omega) h.fits
      rw [fw.free_rest _ hrow (mt Call.mem_qubits_raise.mp hmem), fs.free_rest q hq hmem,
        Call.isMeasurement_raise, h.free q hq]
      split <;> omega

/-! ### A run in a block -/

/-- No call has touched the rows from `start` on; barriers have filled them up to `top`. -/
def Level (w : Schedule) (start top : Nat) : Prop :=
  ∀ q, start ≤ q → q < w.rows.length → w.free q = top ∧ ∀ t, w.cellAt q t = idle q

/-- What holds of `w` while calls are made in the block of `d`, from the schedule `w₀` on. -/
structure Working (w₀ : Schedule) (d : Extent) (base : Nat) (s w : Schedule) : Prop where
  mirrors : Mirrors d base s w
  length : w.rows.length = w₀.rows.length
  before : ∀ q < d.qubits, ∀ t, w.cellAt q t = w₀.cellAt q t
  after : ∃ top, Level w (d.qubits + s.rows.length) top

/-- A level block is as good as an empty schedule. -/
lemma Level.working {w : Schedule} {d : Extent} {base n : Nat} (h : Level w d.qubits base)
    (hn : d.qubits + n ≤ w.rows.length) : Working w d base (empty n) w := by
  have hlen : (empty n).rows.length = n := by simp [empty]
  refine ⟨⟨⟨by rwa [hlen], fun q hq t => ?_, fun q hq t _ => ?_⟩, fun q hq => ?_⟩, rfl,
    fun _ _ _ => rfl, base, fun q hq hlt => h q (by omega) hlt⟩
  · rw [(h (d.qubits + q) (by omega) (by omega)).2, cellAt_empty, raise_idle]
  · exact (h (d.qubits + q) (by omega) (by omega)).2 t
  · rw [(h (d.qubits + q) (by omega) (by omega)).1, free_empty, Nat.add_zero]

lemma Working.perform {w₀ : Schedule} {d : Extent} {base : Nat} {s s' w w' : Schedule} {c : Call}
    {slot slot' : Nat} (h : Working w₀ d base s w) (hs : s.perform c = .ok (s', slot))
    (hw : w.perform (c.raise d) = .ok (w', slot')) (hc : c.Keeps s.rows.length) :
    Working w₀ d base s' w' := by
  have fw := perform_fills hw (Call.nodup_raise hc.nodup)
  have hlen := length_perform hs
  -- rows outside of the block are not among those of the call
  have hother : ∀ q, q < d.qubits ∨ d.qubits + s.rows.length ≤ q → q ∉ (c.raise d).qubits := by
    intro q hq hmem
    rw [Call.qubits_raise] at hmem
    obtain ⟨r, hr, rfl⟩ := List.mem_map.mp hmem
    have := hc.inRange r hr
    omega
  have hcell : ∀ q, q < d.qubits ∨ d.qubits + s.rows.length ≤ q → ∀ t,
      w'.cellAt q t = w.cellAt q t := fun q hq t => by
    rw [fw.cellAt, if_neg fun h => hother q hq h.1]
  obtain ⟨top, hlevel⟩ := h.after
  refine ⟨h.mirrors.perform hs hw hc, fw.length.trans h.length, fun q hq t => ?_,
    if (c.raise d).isMeasurement then max top (slot' + 1) else top, fun q hq hlt => ?_⟩
  · rw [hcell q (Or.inl hq), h.before q hq]
  · rw [hlen] at hq
    rw [fw.length] at hlt
    obtain ⟨hfree, hidle⟩ := hlevel q hq hlt
    refine ⟨?_, fun t => by rw [hcell q (Or.inr hq), hidle]⟩
    rw [fw.free_rest q hlt (hother q (Or.inr hq)), hfree]

lemma Working.performAll {w₀ : Schedule} {d : Extent} {base : Nat} {s s' w w' : Schedule}
    {cs : List Call} (h : Working w₀ d base s w) (hs : s.performAll cs = .ok s')
    (hw : w.performAll (cs.map (Call.raise d)) = .ok w') (hcs : ∀ c ∈ cs, c.Keeps s.rows.length) :
    Working w₀ d base s' w' := by
  induction cs generalizing s w with
  | nil =>
    obtain rfl := Except.ok.inj hs
    obtain rfl := Except.ok.inj hw
    exact h
  | cons c cs ih =>
    obtain ⟨s₁, slot, hs₁, hs⟩ := performAll_cons_ok.mp hs
    obtain ⟨w₁, slot', hw₁, hw⟩ := performAll_cons_ok.mp hw
    have hc := hcs c List.mem_cons_self
    refine ih (h.perform hs₁ hw₁ hc) hs hw fun e he => ?_
    rw [length_perform hs₁]
    exact hcs e (List.mem_cons_of_mem _ he)

end Schedule
end QCircuit
