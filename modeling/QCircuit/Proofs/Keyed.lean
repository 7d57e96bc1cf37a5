import Mathlib.Tactic.Common
import QCircuit.Keyed

/-!
Tables with ascending keys.

Changing the value of a key keeps the keys ascending and changes nothing else, so a table is known
by what it says of each key.
-/

namespace QCircuit.Keyed

variable {κ α : Type} [LT κ]

/-- The keys ascend, so that no key comes twice. -/
def Ascending (t : Keyed κ α) : Prop := t.Pairwise (·.1 < ·.1)

instance [DecidableLT κ] (t : Keyed κ α) : Decidable t.Ascending :=
  inferInstanceAs (Decidable (List.Pairwise _ _))

def keys (t : Keyed κ α) : List κ := t.map (·.1)

/-- Whether keys ascend depends on the keys only. -/
lemma Ascending.of_keys_eq {β : Type} {t : Keyed κ α} {u : Keyed κ β} (ht : t.Ascending)
    (h : u.keys = t.keys) : u.Ascending := by
  have hkeys : t.keys.Pairwise (· < ·) := List.pairwise_map.mpr ht
  rw [← h] at hkeys
  exact List.pairwise_map.mp hkeys

section Changes

variable [DecidableLT κ] [DecidableEq κ]

omit [LT κ] [DecidableLT κ] in
lemma lookup_cons_ite (j i : κ) (y : α) (t : Keyed κ α) :
    List.lookup j ((i, y) :: t) = if j = i then some y else t.lookup j := by
  rw [List.lookup_cons]
  by_cases hj : j = i
  · simp [hj]
  · simp [beq_eq_false_iff_ne.mpr hj, hj]

lemma lookup_insert (k j : κ) (x : α) (t : Keyed κ α) :
    (insert k x t).lookup j = if j = k then some x else t.lookup j := by
  unfold insert
  induction t with
  | nil => exact lookup_cons_ite j k x []
  | cons p t ih =>
    obtain ⟨i, y⟩ := p
    rw [alter]
    split
    · exact lookup_cons_ite j k x _
    · split
      · next hi =>
        rw [lookup_cons_ite, lookup_cons_ite, ← hi]
        split <;> rfl
      · next hi =>
        rw [lookup_cons_ite, lookup_cons_ite, ih]
        by_cases hj : j = k
        · simp [hj, hi]
        · simp [hj]

lemma mem_insert {k : κ} {x : α} {t : Keyed κ α} {p : κ × α} (h : p ∈ insert k x t) :
    p = (k, x) ∨ p ∈ t := by
  unfold insert at h
  induction t with
  | nil => simpa [alter] using h
  | cons q t ih =>
    obtain ⟨i, y⟩ := q
    rw [alter] at h
    split at h
    · simpa using h
    · split at h
      · next hi =>
        subst hi
        rcases List.mem_cons.mp h with rfl | h
        · exact Or.inl rfl
        · exact Or.inr (List.mem_cons_of_mem _ h)
      · rcases List.mem_cons.mp h with rfl | h
        · exact Or.inr List.mem_cons_self
        · exact (ih h).imp id (List.mem_cons_of_mem _)

end Changes

/-! ### Ascending keys -/

omit [LT κ] in
lemma mem_keys {k : κ} {t : Keyed κ α} : k ∈ t.keys ↔ ∃ x, (k, x) ∈ t := by
  simp [keys]

omit [LT κ] in
lemma lookup_eq_none_iff [DecidableEq κ] {k : κ} {t : Keyed κ α} :
    t.lookup k = none ↔ k ∉ t.keys := by
  simp only [List.lookup_eq_none_iff, bne_iff_ne, keys, List.mem_map, not_exists, not_and]
  exact ⟨fun h p hp he => h p hp he.symm, fun h p hp he => h p hp he.symm⟩

section Order

set_option linter.unusedSectionVars false

variable [LE κ] [Std.IsLinearOrder κ] [Std.LawfulOrderLT κ]

variable [DecidableEq κ]

/-- In a table with ascending keys every pair is found. -/
lemma Ascending.lookup_eq_some_iff {t : Keyed κ α} (ht : t.Ascending) {k : κ} {x : α} :
    t.lookup k = some x ↔ (k, x) ∈ t := by
  induction t with
  | nil => simp
  | cons p t ih =>
    obtain ⟨i, y⟩ := p
    obtain ⟨hi, ht⟩ := List.pairwise_cons.mp ht
    rw [lookup_cons_ite, List.mem_cons, Prod.mk.injEq]
    split
    · next hk =>
      subst hk
      have hnot : (k, x) ∉ t := fun hc => Std.lt_irrefl (hi (k, x) hc)
      simp [hnot, eq_comm]
    · next hk => simp [hk, ih ht]

variable [DecidableLT κ] {k : κ} {f : Option α → α}

lemma alter_of_lt {t : Keyed κ α} (h : ∀ p ∈ t, k < p.1) : alter k f t = (k, f none) :: t := by
  cases t with
  | nil => rfl
  | cons p t => rw [alter, if_pos (h p List.mem_cons_self)]

lemma alter_self {t : Keyed κ α} (x : α) : alter k f ((k, x) :: t) = (k, f (some x)) :: t := by
  rw [alter, if_neg Std.lt_irrefl, if_pos rfl]

lemma alter_append {s t : Keyed κ α} (h : ∀ p ∈ s, p.1 < k) :
    alter k f (s ++ t) = s ++ alter k f t := by
  induction s with
  | nil => rfl
  | cons p s ih =>
    obtain ⟨hp, hs⟩ := List.forall_mem_cons.mp h
    have hnot : ¬ k < p.1 := fun hc => Std.lt_irrefl (Std.lt_trans hp hc)
    rw [List.cons_append, alter, if_neg hnot, if_neg (Std.ne_of_lt hp).symm, ih hs,
      List.cons_append]

/-- A key is missing between the keys before and behind it, or it stands there. -/
lemma Ascending.exists_split {t : Keyed κ α} (ht : t.Ascending) (k : κ) :
    ∃ s u, (∀ p ∈ s, p.1 < k) ∧ (∀ p ∈ u, k < p.1) ∧
      (t = s ++ u ∨ ∃ x, t = s ++ (k, x) :: u) := by
  induction t with
  | nil => exact ⟨[], [], by simp, by simp, .inl rfl⟩
  | cons p t ih =>
    obtain ⟨hp, ht⟩ := List.pairwise_cons.mp ht
    rcases Std.lt_trichotomy k p.1 with hk | rfl | hk
    · refine ⟨[], p :: t, by simp, List.forall_mem_cons.mpr ⟨hk, fun q hq => ?_⟩, .inl rfl⟩
      exact Std.lt_trans hk (hp q hq)
    · exact ⟨[], t, by simp, hp, .inr ⟨p.2, rfl⟩⟩
    · obtain ⟨s, u, hs, hu, h⟩ := ih ht
      refine ⟨p :: s, u, List.forall_mem_cons.mpr ⟨hk, hs⟩, hu, ?_⟩
      rcases h with rfl | ⟨x, rfl⟩
      · exact .inl rfl
      · exact .inr ⟨x, rfl⟩

lemma lookup_split {s u : Keyed κ α} (hs : ∀ p ∈ s, p.1 < k) :
    (s ++ u).lookup k = u.lookup k := by
  have hnone : s.lookup k = none :=
    lookup_eq_none_iff.mpr fun hc => by
      obtain ⟨x, hx⟩ := mem_keys.mp hc
      exact Std.lt_irrefl (hs _ hx)
  rw [List.lookup_append, hnone, Option.none_or]

/-- Changing the value of a key, seen from the place of the key. -/
lemma Ascending.exists_alter {t : Keyed κ α} (ht : t.Ascending) (k : κ) (f : Option α → α) :
    ∃ s u, (∀ p ∈ s, p.1 < k) ∧ (∀ p ∈ u, k < p.1) ∧
      t = s ++ ((t.lookup k).map (k, ·)).toList ++ u ∧
        alter k f t = s ++ (k, f (t.lookup k)) :: u := by
  obtain ⟨s, u, hs, hu, h⟩ := ht.exists_split k
  refine ⟨s, u, hs, hu, ?_⟩
  rcases h with rfl | ⟨x, rfl⟩
  · have hnone : u.lookup k = none :=
      lookup_eq_none_iff.mpr fun hc => by
        obtain ⟨x, hx⟩ := mem_keys.mp hc
        exact Std.lt_irrefl (hu _ hx)
    rw [lookup_split hs, hnone, alter_append hs, alter_of_lt hu]
    simp
  · have hsome : List.lookup k ((k, x) :: u) = some x := by
      rw [lookup_cons_ite, if_pos rfl]
    rw [lookup_split hs, hsome, alter_append hs, alter_self]
    simp

/-- **Changing the value of a key keeps the keys ascending.** -/
theorem Ascending.alter {t : Keyed κ α} (ht : t.Ascending) (k : κ) (f : Option α → α) :
    (t.alter k f).Ascending := by
  obtain ⟨s, u, hs, hu, heq, halter⟩ := ht.exists_alter k f
  rw [halter]
  rw [heq] at ht
  have hsu : (s ++ u).Ascending := by
    refine ht.sublist ?_
    rw [List.append_assoc]
    exact (List.sublist_append_right _ _).append_left s
  obtain ⟨hs', hu', -⟩ := List.pairwise_append.mp hsu
  refine List.pairwise_append.mpr ⟨hs', List.pairwise_cons.mpr ⟨hu, hu'⟩, fun p hp q hq => ?_⟩
  rcases List.mem_cons.mp hq with rfl | hq
  · exact hs p hp
  · exact Std.lt_trans (hs p hp) (hu q hq)

/-- **Changing the value of a key leaves the others as they are.** -/
theorem Ascending.lookup_alter {t : Keyed κ α} (ht : t.Ascending) (k j : κ) (f : Option α → α) :
    (t.alter k f).lookup j = if j = k then some (f (t.lookup k)) else t.lookup j := by
  obtain ⟨s, u, -, -, heq, halter⟩ := ht.exists_alter k f
  split
  · next hj =>
    subst hj
    rw [(ht.alter j f).lookup_eq_some_iff, halter]
    simp
  · next hj =>
    refine Option.ext fun x => ?_
    rw [(ht.alter k f).lookup_eq_some_iff, ht.lookup_eq_some_iff, halter]
    conv_rhs => rw [heq]
    simp [hj, Ne.symm hj, Option.mem_toList]

/-- **Items put into a table one after the other.** What it says of a key is made from the items of
this key, in their order. -/
theorem Ascending.foldl_alter {β : Type} (key : β → κ) (f : β → Option α → α) (xs : List β)
    {t : Keyed κ α} (ht : t.Ascending) :
    (xs.foldl (fun t x => t.alter (key x) (f x)) t).Ascending ∧
      ∀ k, (xs.foldl (fun t x => t.alter (key x) (f x)) t).lookup k =
        (xs.filter (key · = k)).foldl (fun o x => some (f x o)) (t.lookup k) := by
  induction xs generalizing t with
  | nil => exact ⟨ht, fun k => rfl⟩
  | cons x xs ih =>
    obtain ⟨hasc, hlookup⟩ := ih (ht.alter (key x) (f x))
    refine ⟨hasc, fun k => ?_⟩
    rw [List.foldl_cons, hlookup, ht.lookup_alter]
    by_cases hk : key x = k
    · simp [hk]
    · simp [hk, Ne.symm hk]

end Order

end QCircuit.Keyed
