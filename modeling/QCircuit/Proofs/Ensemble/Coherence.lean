import Mathlib.Data.List.Nodup
import Mathlib.Tactic.Common
import QCircuit.Simulate.Ensemble

/-!
The bookkeeping of an ensemble.

The live ids are those with a stored branch, each once, and what is remembered of a condition is
the set of live ids whose branch satisfies it. Every gate keeps this: a unitary leaves the classical
bits alone, and the children of a measured branch differ from it in the measured bit only, which the
conditions that are kept do not read.
-/

namespace QCircuit

/-- What a measurement leaves are children, one for an outcome. -/
lemma Branch.exists_child_of_mem_measure {b b' : Branch} {qubit clbit : Nat}
    (h : b' ∈ b.measure qubit clbit) : ∃ outcome p, b' = b.child qubit clbit outcome p := by
  simp only [Branch.measure, List.mem_filterMap] at h
  obtain ⟨⟨outcome, p⟩, -, hchild⟩ := h
  split at hchild
  · simp at hchild
  · exact ⟨outcome, p, (Option.some.inj hchild).symm⟩

namespace Ensemble

/-- A live branch that satisfies a condition. -/
def Satisfies (e : Ensemble) (c : Condition) (id : Nat) : Prop :=
  id ∈ e.live ∧ (e.branch? id).any (c.holds ·.clbits) = true

structure Coherent (e : Ensemble) : Prop where
  nodup : e.live.Nodup
  stored : ∀ id, id ∈ e.live ↔ ∃ b, e.branch? id = some b
  cached : ∀ p ∈ e.cache, ∀ id, id ∈ p.2 ↔ e.Satisfies p.1 id
  listed : ∀ p ∈ e.cache, ∀ bit ∈ p.1.clbits, (bit, p.1) ∈ e.dependents

lemma branch?_lt_size {e : Ensemble} {id : Nat} {b : Branch} (h : e.branch? id = some b) :
    id < e.store.size := by
  by_contra hc
  simp [branch?, Array.getElem?_eq_none (Nat.le_of_not_lt hc)] at h

lemma Coherent.live_lt_size {e : Ensemble} (h : e.Coherent) {id : Nat} (hid : id ∈ e.live) :
    id < e.store.size := by
  obtain ⟨b, hb⟩ := (h.stored id).mp hid
  exact branch?_lt_size hb

lemma coherent_initial (qubits clbits : Nat) (record : Bool) :
    (initial qubits clbits record).Coherent := by
  refine ⟨by simp [initial], fun id => ?_, by simp [initial], by simp [initial]⟩
  rcases id with _ | id <;> simp [initial, branch?]

/-! ### Conditions -/

/-- Whether a gate under this condition acts on a branch. -/
def accepts (condition : Option Condition) (b : Branch) : Bool :=
  condition.all (·.holds b.clbits)

@[simp] lemma accepts_none : accepts none = fun _ => true := rfl

@[simp] lemma accepts_some (c : Condition) : accepts (some c) = fun b => c.holds b.clbits := rfl

lemma mem_cache_of_lookup {cache : List (Condition × List Nat)} {c : Condition} {ids : List Nat}
    (h : cache.lookup c = some ids) : (c, ids) ∈ cache := by
  obtain ⟨l₁, l₂, rfl, -⟩ := List.lookup_eq_some_iff.mp h
  simp

lemma Coherent.remember {e : Ensemble} (h : e.Coherent) (c : Condition) :
    (e.remember c).Coherent := by
  refine ⟨h.nodup, h.stored, ?_, ?_⟩
  · intro p hp id
    rcases List.mem_cons.mp hp with rfl | hp
    · simp [Satisfies, Ensemble.remember, branch?]
    · exact h.cached p hp id
  · intro p hp bit hbit
    simp only [Ensemble.remember, List.mem_append, List.mem_filter, List.mem_map]
    rcases List.mem_cons.mp hp with rfl | hp
    · by_cases hd : (bit, c) ∈ e.dependents
      · exact Or.inr hd
      · exact Or.inl ⟨⟨bit, hbit, rfl⟩, by simpa using hd⟩
    · exact Or.inr (h.listed p hp bit hbit)

/-- Looking up which branches a gate is meant for changes no branch. -/
lemma targeted_frame (e : Ensemble) (condition : Option Condition) :
    (e.targeted condition).1.store = e.store ∧ (e.targeted condition).1.live = e.live ∧
      (e.targeted condition).1.qubits = e.qubits ∧ (e.targeted condition).1.clbits = e.clbits := by
  cases condition with
  | none => simp [targeted]
  | some c => by_cases hc : (e.cache.lookup c).isSome <;> simp [targeted, hc, Ensemble.remember]

lemma Coherent.targeted {e : Ensemble} (h : e.Coherent) (condition : Option Condition) :
    (e.targeted condition).1.Coherent := by
  cases condition with
  | none => exact h
  | some c =>
    by_cases hc : (e.cache.lookup c).isSome
    · simpa [Ensemble.targeted, hc] using h
    · simpa [Ensemble.targeted, hc] using h.remember c

/-- The remembered answer of a condition is what evaluating it on every live branch gives. -/
lemma Coherent.targeted_ids {e : Ensemble} (h : e.Coherent) (condition : Option Condition) :
    (e.targeted condition).2 = e.live.filter fun id => (e.branch? id).any (accepts condition) := by
  cases condition with
  | none =>
    refine (List.filter_eq_self.mpr fun id hid => ?_).symm
    obtain ⟨b, hb⟩ := (h.stored id).mp hid
    simp [hb]
  | some c =>
    have hframe := targeted_frame e (some c)
    have hco := h.targeted (some c)
    obtain ⟨ids, hids⟩ : ∃ ids, (e.targeted (some c)).1.cache.lookup c = some ids := by
      by_cases hc : (e.cache.lookup c).isSome
      · obtain ⟨ids, hids⟩ := Option.isSome_iff_exists.mp hc
        exact ⟨ids, by simp [Ensemble.targeted, hids]⟩
      · exact ⟨_, by simp [Ensemble.targeted, hc, Ensemble.remember]; rfl⟩
    have hmem := hco.cached _ (mem_cache_of_lookup hids)
    have heq : (e.targeted (some c)).2 = (e.targeted (some c)).1.live.filter (· ∈ ids) := by
      simp only [Ensemble.targeted] at hids ⊢
      rw [hids, Option.getD_some]
    rw [heq, hframe.2.1]
    refine List.filter_congr fun id hid => ?_
    have := hmem id
    simp only [Satisfies, branch?, hframe.1, hframe.2.1] at this
    simp [this, hid, branch?]

/-! ### Changes of single branches -/

lemma getElem?_foldl_modify (f : Option Branch → Option Branch) (ids : List Nat) (hnd : ids.Nodup)
    (store : Array (Option Branch)) (k : Nat) :
    (ids.foldl (fun s id => s.modify id f) store)[k]? =
      if k ∈ ids then store[k]?.map f else store[k]? := by
  induction ids generalizing store with
  | nil => simp
  | cons id ids ih =>
    obtain ⟨hid, hnd⟩ := List.nodup_cons.mp hnd
    rw [List.foldl_cons, ih hnd, Array.getElem?_modify]
    by_cases hk : k = id
    · subst hk
      simp [hid]
    · simp [hk, Ne.symm hk]

/-- Changes the stored branches of some ids. -/
def modifyOn (e : Ensemble) (f : Branch → Branch) (ids : List Nat) : Ensemble :=
  { e with store := ids.foldl (fun s id => s.modify id (·.map f)) e.store }

lemma applyOn_eq (e : Ensemble) (targets : List Nat) (m : Matrix Complex) (ids : List Nat) :
    e.applyOn targets m ids = e.modifyOn (·.apply targets m) ids := rfl

lemma modifyOn_branch? (e : Ensemble) (f : Branch → Branch) {ids : List Nat} (hnd : ids.Nodup)
    (id : Nat) :
    (e.modifyOn f ids).branch? id =
      if id ∈ ids then (e.branch? id).map f else e.branch? id := by
  unfold branch? modifyOn
  rw [getElem?_foldl_modify _ _ hnd]
  split <;> rcases e.store[id]? with _ | b <;> simp

/-- A change that leaves the classical bits alone keeps the bookkeeping. -/
lemma Coherent.modifyOn {e : Ensemble} (h : e.Coherent) {f : Branch → Branch}
    (hf : ∀ b, (f b).clbits = b.clbits) {ids : List Nat} (hnd : ids.Nodup) :
    (e.modifyOn f ids).Coherent := by
  refine ⟨h.nodup, fun id => ?_, fun p hp id => ?_, h.listed⟩
  · rw [modifyOn_branch? _ _ hnd]
    have := h.stored id
    split <;> simpa [Ensemble.modifyOn] using this
  · have hany : ((e.modifyOn f ids).branch? id).any (p.1.holds ·.clbits) =
        (e.branch? id).any (p.1.holds ·.clbits) := by
      rw [modifyOn_branch? _ _ hnd]
      split
      · rcases e.branch? id with _ | b
        · rfl
        · simp [hf]
      · rfl
    rw [Satisfies, hany]
    exact h.cached p hp id

/-! ### Measurements -/

/-- What the splitting of the branches `done` has made of a store: their places are empty, and what
was noted of each are new ids that hold its children. -/
structure Splits (store : Array (Option Branch)) (qubit clbit : Nat) (done : List Nat)
    (s : Array (Option Branch) × List (Nat × List Nat)) : Prop where
  size_le : store.size ≤ s.1.size
  kept : ∀ id < store.size, id ∉ done → s.1[id]? = store[id]?
  emptied : ∀ id ∈ done, (s.1[id]?).join = none
  idle : ∀ id, id ∉ done → s.2.lookup id = none
  noted : ∀ id ∈ done, ∃ b ids, (store[id]?).join = some b ∧ s.2.lookup id = some ids ∧ ids.Nodup ∧
    (∀ k ∈ ids, store.size ≤ k ∧ k < s.1.size) ∧
    ids.map (fun k => (s.1[k]?).join) = (b.measure qubit clbit).map some
  fresh : ∀ k, store.size ≤ k → k < s.1.size →
    ∃ id ∈ done, ∃ ids, s.2.lookup id = some ids ∧ k ∈ ids
  apart : ∀ id id' ids ids', id ≠ id' → s.2.lookup id = some ids → s.2.lookup id' = some ids' →
    ids.Disjoint ids'

lemma splits_nil (store : Array (Option Branch)) (qubit clbit : Nat) :
    Splits store qubit clbit [] (store, []) where
  size_le := Nat.le_refl _
  kept := by simp
  emptied := by simp
  idle := by simp
  noted := by simp
  fresh := fun k h₁ h₂ => absurd h₂ (Nat.not_lt.mpr h₁)
  apart := by simp

section Split

variable {store : Array (Option Branch)} {qubit clbit parent : Nat} {done : List Nat}
  {s : Array (Option Branch) × List (Nat × List Nat)} {b : Branch}

lemma split_eq (hb : (s.1[parent]?).join = some b) :
    split qubit clbit s parent =
      (s.1.setIfInBounds parent none ++ ((b.measure qubit clbit).map some).toArray,
        (parent, List.range' s.1.size (b.measure qubit clbit).length) :: s.2) := by
  simp [split, hb]

lemma split_old {k : Nat} (hb : (s.1[parent]?).join = some b) (hk : k < s.1.size)
    (hne : k ≠ parent) : (split qubit clbit s parent).1[k]? = s.1[k]? := by
  rw [split_eq hb, Array.getElem?_append_left (by simpa using hk),
    Array.getElem?_setIfInBounds_ne (Ne.symm hne)]

lemma split_parent (hb : (s.1[parent]?).join = some b) :
    ((split qubit clbit s parent).1[parent]?).join = none := by
  have hp : parent < s.1.size := by
    by_contra hc
    simp [Array.getElem?_eq_none (Nat.le_of_not_lt hc)] at hb
  rw [split_eq hb, Array.getElem?_append_left (by simpa using hp),
    Array.getElem?_setIfInBounds_self_of_lt hp]
  rfl

lemma split_child (hb : (s.1[parent]?).join = some b) (i : Nat) :
    (split qubit clbit s parent).1[s.1.size + i]? = ((b.measure qubit clbit)[i]?).map some := by
  rw [split_eq hb, Array.getElem?_append_right (by simp)]
  simp

/-- The children are stored where the ids that stand for the parent say. -/
lemma split_children (hb : (s.1[parent]?).join = some b) :
    (List.range' s.1.size (b.measure qubit clbit).length).map
      (fun k => ((split qubit clbit s parent).1[k]?).join) = (b.measure qubit clbit).map some := by
  refine List.ext_getElem? fun i => ?_
  rw [List.getElem?_map, List.getElem?_map]
  by_cases hi : i < (b.measure qubit clbit).length
  · simp [List.getElem?_range' hi, split_child hb, List.getElem?_eq_getElem hi]
  · simp [Nat.le_of_not_lt hi]

lemma lookup_split (hb : (s.1[parent]?).join = some b) (id : Nat) :
    (split qubit clbit s parent).2.lookup id =
      if id = parent then some (List.range' s.1.size (b.measure qubit clbit).length)
      else s.2.lookup id := by
  rw [split_eq hb, List.lookup_cons]
  by_cases hid : id = parent
  · simp [hid]
  · simp [beq_eq_false_iff_ne.mpr hid, hid]

/-- New ids lie above all that were noted before. -/
lemma Splits.disjoint_new (h : Splits store qubit clbit done s) {id : Nat} {ids : List Nat}
    (hids : s.2.lookup id = some ids) (n : Nat) : ids.Disjoint (List.range' s.1.size n) := by
  intro k hk hk'
  have hmem : id ∈ done := by
    by_contra hc
    simp [h.idle id hc] at hids
  obtain ⟨-, ids', -, hids', -, hbound, -⟩ := h.noted id hmem
  rw [hids, Option.some.injEq] at hids'
  have := hbound k (hids' ▸ hk)
  rw [List.mem_range'_1] at hk'
  omega

/-- Splitting one more branch. -/
lemma Splits.step (h : Splits store qubit clbit done s) (hp : parent ∉ done)
    (hb : (store[parent]?).join = some b) :
    Splits store qubit clbit (parent :: done) (split qubit clbit s parent) := by
  have hin : ∀ {id : Nat} {b : Branch}, (store[id]?).join = some b → id < store.size := by
    intro id b hb
    by_contra hc
    simp [Array.getElem?_eq_none (Nat.le_of_not_lt hc)] at hb
  have hsb : (s.1[parent]?).join = some b := by rw [h.kept _ (hin hb) hp, hb]
  have hsize : (split qubit clbit s parent).1.size =
      s.1.size + (b.measure qubit clbit).length := by simp [split_eq hsb]
  have hlook : ∀ id, (split qubit clbit s parent).2.lookup id = _ := lookup_split hsb
  have hother : ∀ {id : Nat}, id ∈ done → id ≠ parent := fun hid he => hp (he ▸ hid)
  have hle := h.size_le
  refine ⟨by omega, ?_, ?_, ?_, ?_, ?_, ?_⟩
  · intro id hid hmem
    obtain ⟨hne, hmem⟩ := not_or.mp (mt List.mem_cons.mpr hmem)
    rw [split_old hsb (by omega) hne, h.kept id hid hmem]
  · intro id hmem
    rcases List.mem_cons.mp hmem with rfl | hmem
    · exact split_parent hsb
    · obtain ⟨b', ids, hb', -⟩ := h.noted id hmem
      have hid := hin hb'
      rw [split_old hsb (by omega) (hother hmem)]
      exact h.emptied id hmem
  · intro id hmem
    obtain ⟨hne, hmem⟩ := not_or.mp (mt List.mem_cons.mpr hmem)
    rw [hlook, if_neg hne, h.idle id hmem]
  · intro id hmem
    rcases List.mem_cons.mp hmem with rfl | hmem
    · refine ⟨b, _, hb, by rw [hlook, if_pos rfl], List.nodup_range', ?_, split_children hsb⟩
      intro k hk
      rw [List.mem_range'_1] at hk
      omega
    · obtain ⟨b', ids, hb', hids, hnd, hbound, hmap⟩ := h.noted id hmem
      have hparent := hin hb
      refine ⟨b', ids, hb', by rw [hlook, if_neg (hother hmem), hids], hnd, fun k hk => ?_, ?_⟩
      · have := hbound k hk
        omega
      · rw [← hmap]
        refine List.map_congr_left fun k hk => ?_
        have := hbound k hk
        rw [split_old hsb (by omega) (by omega)]
  · intro k hk hk'
    by_cases hold : k < s.1.size
    · obtain ⟨id, hid, ids, hids, hmem⟩ := h.fresh k hk hold
      exact ⟨id, List.mem_cons_of_mem _ hid, ids, by rw [hlook, if_neg (hother hid), hids], hmem⟩
    · refine ⟨parent, List.mem_cons_self, _, by rw [hlook, if_pos rfl], ?_⟩
      rw [List.mem_range'_1]
      omega
  · intro id id' ids ids' hne hids hids'
    rw [hlook] at hids hids'
    split at hids <;> split at hids'
    · omega
    · obtain rfl := Option.some.inj hids
      exact List.disjoint_symm (h.disjoint_new hids' _)
    · obtain rfl := Option.some.inj hids'
      exact h.disjoint_new hids _
    · exact h.apart id id' ids ids' hne hids hids'

/-- Splitting all the branches of a list. -/
lemma Splits.run (h : Splits store qubit clbit done s) (ids : List Nat)
    (hnd : (done.reverse ++ ids).Nodup) (hids : ∀ id ∈ ids, ∃ b, (store[id]?).join = some b) :
    Splits store qubit clbit (ids.reverse ++ done) (ids.foldl (split qubit clbit) s) := by
  induction ids generalizing done s with
  | nil => exact h
  | cons id ids ih =>
    obtain ⟨b, hb⟩ := hids id List.mem_cons_self
    have hid : id ∉ done := by
      intro hmem
      exact (List.disjoint_of_nodup_append hnd) (List.mem_reverse.mpr hmem) List.mem_cons_self
    have := ih (h.step hid hb) (by simpa using hnd) fun k hk => hids k (List.mem_cons_of_mem _ hk)
    simpa using this

end Split

/-- The ids that stand for a live id after a measurement. -/
def heirs (replaced : List (Nat × List Nat)) (id : Nat) : List Nat :=
  (replaced.lookup id).getD [id]

section Measure

variable {e : Ensemble} {qubit clbit : Nat} {ids : List Nat}
  {s : Array (Option Branch) × List (Nat × List Nat)}

/-- The heirs of a live branch: its children if it was split, itself if not. -/
lemma heirs_branches (hs : Splits e.store qubit clbit ids s) {id : Nat} {b : Branch}
    (hb : e.branch? id = some b) :
    (heirs s.2 id).map (fun k => (s.1[k]?).join) =
      (if id ∈ ids then b.measure qubit clbit else [b]).map some := by
  split
  · next hid =>
    obtain ⟨b', ks, hb', hks, -, -, hmap⟩ := hs.noted id hid
    obtain rfl : b = b' := Option.some.inj (hb.symm.trans hb')
    rw [heirs, hks, Option.getD_some, hmap]
  · next hid =>
    rw [heirs, hs.idle id hid]
    simpa [hs.kept id (branch?_lt_size hb) hid, branch?] using hb

lemma heirs_nodup (hs : Splits e.store qubit clbit ids s) (id : Nat) : (heirs s.2 id).Nodup := by
  by_cases hid : id ∈ ids
  · obtain ⟨-, ks, -, hks, hnd, -⟩ := hs.noted id hid
    rwa [heirs, hks]
  · rw [heirs, hs.idle id hid]
    simp

lemma mem_heirs_bounds (hs : Splits e.store qubit clbit ids s) {id k : Nat}
    (hk : k ∈ heirs s.2 id) : (id ∉ ids ∧ k = id) ∨ (id ∈ ids ∧ e.store.size ≤ k) := by
  by_cases hid : id ∈ ids
  · obtain ⟨-, ks, -, hks, -, hbound, -⟩ := hs.noted id hid
    rw [heirs, hks] at hk
    exact Or.inr ⟨hid, (hbound k hk).1⟩
  · rw [heirs, hs.idle id hid] at hk
    exact Or.inl ⟨hid, by simpa using hk⟩

/-- No id stands for two. -/
lemma heirs_disjoint (hs : Splits e.store qubit clbit ids s) {id id' : Nat} (hne : id ≠ id')
    (hid : id < e.store.size) (hid' : id' < e.store.size) :
    (heirs s.2 id).Disjoint (heirs s.2 id') := by
  intro k hk hk'
  rcases mem_heirs_bounds hs hk with ⟨h₁, rfl⟩ | ⟨h₁, hsize⟩ <;>
    rcases mem_heirs_bounds hs hk' with ⟨h₂, heq⟩ | ⟨h₂, hsize'⟩
  · exact hne heq
  · omega
  · omega
  · obtain ⟨-, ks, -, hks, -⟩ := hs.noted id h₁
    obtain ⟨-, ks', -, hks', -⟩ := hs.noted id' h₂
    rw [heirs, hks] at hk
    rw [heirs, hks'] at hk'
    exact hs.apart id id' ks ks' hne hks hks' hk hk'

/-- Writing a bit that a condition does not read does not change its value. -/
lemma holds_set {c : Condition} {bit : Nat} (hbit : bit ∉ c.clbits) (state : List Bool) (x : Bool) :
    c.holds (state.set bit x) = c.holds state := by
  have hget : ∀ k ∈ c.clbits, (state.set bit x).getD k false = state.getD k false := by
    intro k hk
    have hne : bit ≠ k := fun he => hbit (he ▸ hk)
    simp [List.getD_eq_getElem?_getD, List.getElem?_set_ne hne]
  have hvalue : c.value (state.set bit x) = c.value state := by
    unfold Condition.value
    refine List.foldl_ext _ _ _ fun n k hk => ?_
    rw [hget k hk]
  rw [Condition.holds, Condition.holds, hvalue]

lemma measure_clbits {b child : Branch} (h : child ∈ b.measure qubit clbit) :
    ∃ x, child.clbits = b.clbits.set clbit x := by
  obtain ⟨x, p, rfl⟩ := Branch.exists_child_of_mem_measure h
  exact ⟨x, rfl⟩

/-- What a heir is: a branch that was left alone, or a child. -/
lemma heir_branch (h : e.Coherent) (hs : Splits e.store qubit clbit ids s) {id k : Nat}
    (hid : id ∈ e.live) (hk : k ∈ heirs s.2 id) :
    ∃ b b', e.branch? id = some b ∧ (s.1[k]?).join = some b' ∧
      (b' = b ∨ b' ∈ b.measure qubit clbit) := by
  obtain ⟨b, hb⟩ := (h.stored id).mp hid
  have hmem : (s.1[k]?).join ∈ (heirs s.2 id).map (fun k => (s.1[k]?).join) :=
    List.mem_map_of_mem hk
  rw [heirs_branches hs hb] at hmem
  obtain ⟨b', hb', heq⟩ := List.mem_map.mp hmem
  refine ⟨b, b', hb, heq.symm, ?_⟩
  split at hb'
  · exact Or.inr hb'
  · exact Or.inl (by simpa using hb')

end Measure

/-- What stays remembered after a measurement: conditions that do not read the bit, with the heirs
of the branches that satisfied them. -/
lemma mem_measureOn_cache {e : Ensemble} {qubit clbit : Nat} {ids : List Nat}
    {p : Condition × List Nat} (hp : p ∈ (e.measureOn qubit clbit ids).cache) :
    ∃ old, (p.1, old) ∈ e.cache ∧ (clbit, p.1) ∉ e.dependents ∧
      p.2 = old.flatMap (heirs (ids.foldl (split qubit clbit) (e.store, [])).2) := by
  obtain ⟨⟨c, old⟩, hmem, rfl⟩ := List.mem_map.mp hp
  obtain ⟨hold, hdep⟩ := List.mem_filter.mp hmem
  exact ⟨old, hold, by simpa using hdep, rfl⟩

section MeasureOn

variable {e : Ensemble} {ids : List Nat} (h : e.Coherent) (hnd : ids.Nodup)
  (hlive : ∀ id ∈ ids, id ∈ e.live) (qubit clbit : Nat)
include h hnd hlive

lemma Coherent.splits :
    Splits e.store qubit clbit ids.reverse (ids.foldl (split qubit clbit) (e.store, [])) := by
  have := (splits_nil e.store qubit clbit).run ids (by simpa using hnd) fun id hid =>
    (h.stored id).mp (hlive id hid)
  simpa using this

/-- After a measurement the live branches are the old ones, each that was measured replaced by its
children. -/
lemma Coherent.measureOn_branches :
    (e.measureOn qubit clbit ids).branches = e.live.flatMap fun id =>
      (e.branch? id).toList.flatMap fun b =>
        if id ∈ ids then b.measure qubit clbit else [b] := by
  have hs := h.splits hnd hlive qubit clbit
  set s := ids.foldl (split qubit clbit) (e.store, []) with hsdef
  have hstore : (e.measureOn qubit clbit ids).branch? = fun k => (s.1[k]?).join := rfl
  have hlive' : (e.measureOn qubit clbit ids).live = e.live.flatMap (heirs s.2) := rfl
  rw [branches, hstore, hlive', List.filterMap_flatMap]
  refine List.flatMap_congr fun id hid => ?_
  obtain ⟨b, hb⟩ := (h.stored id).mp hid
  have hmap := heirs_branches hs hb
  simp only [List.mem_reverse] at hmap
  have : (heirs s.2 id).filterMap (fun k => (s.1[k]?).join) =
      ((heirs s.2 id).map (fun k => (s.1[k]?).join)).filterMap fun x => x := by
    rw [List.filterMap_map]
    rfl
  rw [this, hmap, hb]
  simp

theorem Coherent.measureOn : (e.measureOn qubit clbit ids).Coherent := by
  have hs := h.splits hnd hlive qubit clbit
  set s := ids.foldl (split qubit clbit) (e.store, []) with hsdef
  have hbranch : ∀ k, (e.measureOn qubit clbit ids).branch? k = (s.1[k]?).join := fun _ => rfl
  have hmem : ∀ k, k ∈ (e.measureOn qubit clbit ids).live ↔ ∃ id ∈ e.live, k ∈ heirs s.2 id :=
    fun k => List.mem_flatMap
  refine ⟨?_, fun k => ?_, ?_, ?_⟩
  · refine List.nodup_flatMap.mpr ⟨fun id _ => heirs_nodup hs id, ?_⟩
    refine h.nodup.imp_of_mem fun {id id'} hid hid' hne => ?_
    exact heirs_disjoint hs hne (h.live_lt_size hid) (h.live_lt_size hid')
  · rw [hmem, hbranch]
    constructor
    · rintro ⟨id, hid, hk⟩
      obtain ⟨-, b', -, hb', -⟩ := heir_branch h hs hid hk
      exact ⟨b', hb'⟩
    · rintro ⟨b, hb⟩
      by_cases hk : k < e.store.size
      · have hdone : k ∉ ids.reverse := fun hc => by simp [hs.emptied k hc] at hb
        rw [hs.kept k hk hdone] at hb
        exact ⟨k, (h.stored k).mpr ⟨b, hb⟩, by simp [heirs, hs.idle k hdone]⟩
      · have hk' : k < s.1.size := by
          by_contra hc
          simp [Array.getElem?_eq_none (Nat.le_of_not_lt hc)] at hb
        obtain ⟨id, hid, ks, hks, hkk⟩ := hs.fresh k (by omega) hk'
        exact ⟨id, hlive id (List.mem_reverse.mp hid), by simpa [heirs, hks] using hkk⟩
  · -- a kept condition does not read the measured bit, so a heir satisfies it when its parent did
    rintro ⟨c, new⟩ hp k
    obtain ⟨old, hold, hdep, rfl⟩ : ∃ old, (c, old) ∈ e.cache ∧ (clbit, c) ∉ e.dependents ∧
      new = old.flatMap (heirs s.2) := mem_measureOn_cache hp
    have hbit : clbit ∉ c.clbits := fun hc => hdep (h.listed _ hold clbit hc)
    have hheir : ∀ id ∈ e.live, k ∈ heirs s.2 id →
        ((s.1[k]?).join.any (c.holds ·.clbits) = (e.branch? id).any (c.holds ·.clbits)) := by
      intro id hid hk
      obtain ⟨b, b', hb, hb', rfl | hchild⟩ := heir_branch h hs hid hk
      · rw [hb, hb']
      · obtain ⟨x, hx⟩ := measure_clbits hchild
        simp [hb, hb', hx, holds_set hbit]
    have hcached := h.cached _ hold
    simp only [Satisfies] at hcached
    rw [Satisfies, hmem, hbranch]
    rw [List.mem_flatMap]
    constructor
    · rintro ⟨id, hid, hk⟩
      obtain ⟨hidl, hholds⟩ := (hcached id).mp hid
      exact ⟨⟨id, hidl, hk⟩, by rw [hheir id hidl hk, hholds]⟩
    · rintro ⟨⟨id, hid, hk⟩, hholds⟩
      exact ⟨id, (hcached id).mpr ⟨hid, by rw [← hheir id hid hk, hholds]⟩, hk⟩
  · intro p hp bit hbit
    obtain ⟨old, hold, hdep, -⟩ := mem_measureOn_cache hp
    have hmem : (bit, p.1) ∈ e.dependents := h.listed _ hold bit hbit
    have hne : bit ≠ clbit := fun he => hdep (he ▸ hmem)
    exact List.mem_filter.mpr ⟨hmem, by simpa using hne⟩

end MeasureOn

/-! ### Gates -/

lemma Coherent.targeted_nodup {e : Ensemble} (h : e.Coherent) (condition : Option Condition) :
    (e.targeted condition).2.Nodup := by
  rw [h.targeted_ids]
  exact h.nodup.filter _

lemma Coherent.targeted_live {e : Ensemble} (h : e.Coherent) (condition : Option Condition) :
    ∀ id ∈ (e.targeted condition).2, id ∈ (e.targeted condition).1.live := by
  intro id hid
  rw [h.targeted_ids] at hid
  rw [(targeted_frame e condition).2.1]
  exact (List.mem_filter.mp hid).1

/-- **Every gate, refused or not, keeps the bookkeeping.** -/
theorem Coherent.applyGate {e : Ensemble} (h : e.Coherent) (g : Gate) :
    (e.applyGate g).1.Coherent := by
  have hco := h.targeted g.condition
  have hnd := h.targeted_nodup g.condition
  unfold Ensemble.applyGate
  dsimp only
  split
  · split
    · exact hco.measureOn hnd (h.targeted_live g.condition) _ _
    · exact hco
  · split
    · next targets m _ => exact hco.modifyOn (f := (·.apply targets m)) (fun _ => rfl) hnd
    · exact hco

end Ensemble
end QCircuit
