import QCircuit.Proofs.Keyed
import QCircuit.Tally

/-!
Shots dealt one at a time.

A key gets its shots by additions to a 32-bit word: the whole shots first, then one more if its
product rounds up, then one in each round. What the counts have and what is left are the same
number of shots before and after each addition. So the word that is added to is below the number of
shots, which is a word too, and the rounds end with nothing left.
-/

namespace QCircuit

variable {κ : Type}

namespace Keyed

/-- The count of a key; a key that is not there has none. -/
def countOf [DecidableEq κ] (t : Keyed κ Nat) (k : κ) : Nat := (t.lookup k).getD 0

/-- All counts together. -/
def total : Keyed κ Nat → Nat
  | [] => 0
  | (_, n) :: rest => n + total rest

end Keyed

/-! ### The deal -/

namespace Dealing

variable [LT κ] [DecidableLT κ] [DecidableEq κ]

/-- One more, if that is a 32-bit word. -/
def oneMore? (n : Nat) : Option Nat := if n + 1 < 4294967296 then some (n + 1) else none

/-- One shot more for each of the keys, in order, while any are left. -/
def serve? : (left : Nat) → List κ → Keyed κ Nat → Option (Keyed κ Nat × Nat)
  | 0, _, counts => some (counts, 0)
  | left + 1, [], counts => some (counts, left + 1)
  | left + 1, k :: ks, counts => do
    let n ← oneMore? (counts.countOf k)
    serve? left ks (counts.insert k n)

lemma left_of_serve? {left left' : Nat} {ks : List κ} {counts counts' : Keyed κ Nat}
    (h : serve? left ks counts = some (counts', left')) : left' = left - ks.length := by
  induction left, ks, counts using serve?.induct with
  | case1 ks counts =>
    obtain ⟨-, rfl⟩ := Prod.mk.inj (Option.some.inj h)
    simp
  | case2 left counts =>
    obtain ⟨-, rfl⟩ := Prod.mk.inj (Option.some.inj h)
    rfl
  | case3 left k ks counts ih =>
    obtain ⟨n, -, h⟩ := Option.bind_eq_some_iff.mp h
    rw [ih n h, List.length_cons]
    omega

/-- Rounds over all keys of a table until nothing is left. -/
def rounds? (left : Nat) (counts : Keyed κ Nat) : Option (Keyed κ Nat) :=
  if h : left = 0 ∨ counts = [] then some counts
  else
    match hserve : serve? left counts.keys counts with
    | none => none
    | some (counts', left') =>
      have : left' < left := by
        have hlen : 0 < counts.keys.length := by
          simpa [Keyed.keys, List.length_pos_iff] using fun hc => h (.inr hc)
        have := left_of_serve? hserve
        omega
      rounds? left' counts'
termination_by left

/-- The whole shots of the keys that are owed any. -/
def counted (quotas : Keyed κ Quota) : Keyed κ Nat :=
  (quotas.map fun (k, q) => (k, q.base)).filter (0 < ·.2)

/-- The keys whose products round up. -/
def ups (quotas : Keyed κ Quota) : List κ := (quotas.filter (·.2.roundsUp)).map (·.1)

/-- Shots dealt over quotas one at a time. A round goes over the keys that have shots, or over all
if none has. -/
def apportion? (quotas : Keyed κ Quota) (shots : Nat) : Option (Keyed κ Nat) := do
  let (counts, left) ← serve? (shots - assigned quotas) (ups quotas) (counted quotas)
  let players := if 0 < left ∧ counts = [] then quotas.map fun (k, _) => (k, 0) else counts
  return (← rounds? left players).filter (0 < ·.2)

end Dealing

/-! ### Totals of tables -/

namespace Keyed

lemma total_append (s t : Keyed κ Nat) : total (s ++ t) = s.total + t.total := by
  induction s with
  | nil => simp [total]
  | cons p s ih =>
    rw [List.cons_append, total, total, ih]
    omega

lemma le_total {t : Keyed κ Nat} {p : κ × Nat} (h : p ∈ t) : p.2 ≤ t.total := by
  obtain ⟨s, u, rfl⟩ := List.append_of_mem h
  rw [total_append, total]
  omega

lemma total_filter_pos (t : Keyed κ Nat) : total (t.filter (0 < ·.2)) = t.total := by
  induction t with
  | nil => rfl
  | cons p t ih =>
    obtain ⟨k, n⟩ := p
    rcases Nat.eq_zero_or_pos n with rfl | hn
    · simpa [total] using ih
    · simpa [total, hn] using ih

lemma total_zeros {α : Type} (t : Keyed κ α) : total (t.map fun p => (p.1, 0)) = 0 := by
  induction t with
  | nil => rfl
  | cons p t ih => simpa [total] using ih

lemma total_bases (quotas : Keyed κ Quota) :
    total (quotas.map fun (k, q) => (k, q.base)) = assigned quotas := by
  induction quotas with
  | nil => rfl
  | cons x quotas ih => simpa [total, assigned] using ih

variable [LT κ] [DecidableLT κ] [DecidableEq κ]

omit [LT κ] [DecidableLT κ] in
lemma countOf_le_total (t : Keyed κ Nat) (k : κ) : t.countOf k ≤ t.total := by
  unfold countOf
  rcases h : t.lookup k with _ | n
  · exact Nat.zero_le _
  · obtain ⟨s, u, rfl, -⟩ := List.lookup_eq_some_iff.mp h
    exact le_total (p := (k, n)) (by simp)

lemma countOf_insert (k j : κ) (n : Nat) (t : Keyed κ Nat) :
    (t.insert k n).countOf j = if j = k then n else t.countOf j := by
  rw [countOf, lookup_insert]
  split <;> rfl

variable [LE κ] [Std.IsLinearOrder κ] [Std.LawfulOrderLT κ]

lemma total_insert {t : Keyed κ Nat} (ht : t.Ascending) (k : κ) (n : Nat) :
    (t.insert k n).total + t.countOf k = t.total + n := by
  obtain ⟨s, u, -, -, heq, hinsert⟩ := ht.exists_alter k fun _ => n
  have htotal : t.total = s.total + t.countOf k + u.total := by
    conv_lhs => rw [heq]
    rw [total_append, total_append, countOf]
    rcases t.lookup k with _ | m <;> simp [total]
  rw [insert, hinsert, total_append, total, htotal]
  omega

omit [DecidableLT κ] in
lemma countOf_filter_pos {t : Keyed κ Nat} (ht : t.Ascending) (k : κ) :
    countOf (t.filter (0 < ·.2)) k = t.countOf k := by
  have hfilter : Ascending (t.filter (0 < ·.2)) := ht.filter _
  unfold countOf
  rcases h : t.lookup k with _ | n
  · have hnone : List.lookup k (t.filter (0 < ·.2)) = none := by
      rw [lookup_eq_none_iff] at h ⊢
      exact fun hc => h ((List.filter_sublist.map _).subset hc)
    rw [hnone]
  · rw [ht.lookup_eq_some_iff] at h
    rcases Nat.eq_zero_or_pos n with rfl | hn
    · have hnone : List.lookup k (t.filter (0 < ·.2)) = none := by
        refine Option.eq_none_iff_forall_ne_some.mpr fun m hm => ?_
        rw [hfilter.lookup_eq_some_iff, List.mem_filter] at hm
        -- the only count of the key is none at all
        have heq := (ht.lookup_eq_some_iff.mpr hm.1).symm.trans (ht.lookup_eq_some_iff.mpr h)
        obtain rfl := Option.some.inj heq
        simp at hm
      rw [hnone]
      rfl
    · rw [hfilter.lookup_eq_some_iff.mpr (List.mem_filter.mpr ⟨h, by simpa using hn⟩)]

end Keyed

/-! ### What holds all along -/

namespace Dealing

variable [LT κ] [DecidableLT κ] [DecidableEq κ]

/-- The state of a deal: the counts so far, and what is left of the shots. -/
structure Deals (quotas : Keyed κ Quota) (shots : Nat) (counts : Keyed κ Nat) (left : Nat) :
    Prop where
  ascending : counts.Ascending
  keys : ∀ k ∈ counts.keys, k ∈ quotas.keys
  least : ∀ x ∈ quotas, x.2.base ≤ counts.countOf x.1
  total : counts.total + left = max shots (assigned quotas)
  spare : left ≤ shots - assigned quotas

/-- The outcome of a deal: every key has its whole shots, only keys with shots are there, and no
shot is lost. -/
structure Apportions (quotas : Keyed κ Quota) (shots : Nat) (counts : Keyed κ Nat) : Prop where
  ascending : counts.Ascending
  keys : ∀ x ∈ counts, x.1 ∈ quotas.keys ∧ 0 < x.2
  least : ∀ x ∈ quotas, x.2.base ≤ counts.countOf x.1
  total : counts.total = max shots (assigned quotas)

variable [LE κ] [Std.IsLinearOrder κ] [Std.LawfulOrderLT κ]
  {quotas : Keyed κ Quota} {shots left : Nat} {counts : Keyed κ Nat}

/-- **One shot more is no overflow**, and keeps the books. -/
theorem Deals.step (h : Deals quotas shots counts (left + 1)) (hshots : shots < 4294967296)
    {k : κ} (hk : k ∈ quotas.keys) : oneMore? (counts.countOf k) = some (counts.countOf k + 1) ∧
      Deals quotas shots (counts.insert k (counts.countOf k + 1)) left := by
  have htotal := h.total
  have hspare := h.spare
  have hle := counts.countOf_le_total k
  have hinsert := Keyed.total_insert h.ascending k (counts.countOf k + 1)
  refine ⟨if_pos (by omega), h.ascending.alter k _, fun j hj => ?_, fun x hx => ?_, by omega,
    by omega⟩
  · obtain ⟨n, hn⟩ := Keyed.mem_keys.mp hj
    rcases Keyed.mem_insert hn with he | hn
    · rwa [(Prod.mk.inj he).1]
    · exact h.keys j (Keyed.mem_keys.mpr ⟨n, hn⟩)
  · have hleast := h.least x hx
    rw [Keyed.countOf_insert]
    split
    · next he =>
      rw [he] at hleast
      omega
    · exact hleast

/-- Serving keys never fails. -/
lemma Deals.serve (h : Deals quotas shots counts left) (hshots : shots < 4294967296) {ks : List κ}
    (hks : ∀ k ∈ ks, k ∈ quotas.keys) : ∃ counts' left',
      serve? left ks counts = some (counts', left') ∧ Deals quotas shots counts' left' ∧
        (counts ≠ [] → counts' ≠ []) := by
  induction left, ks, counts using serve?.induct with
  | case1 ks counts => exact ⟨counts, 0, rfl, h, id⟩
  | case2 left counts => exact ⟨counts, left + 1, rfl, h, id⟩
  | case3 left k ks counts ih =>
    obtain ⟨hk, hks⟩ := List.forall_mem_cons.mp hks
    obtain ⟨hmore, hnext⟩ := h.step hshots hk
    obtain ⟨counts', left', hserve, hdeals, hne⟩ := ih _ hnext hks
    refine ⟨counts', left', by rw [serve?, hmore]; exact hserve, hdeals, fun _ => hne fun hc => ?_⟩
    have := Keyed.lookup_insert k k (counts.countOf k + 1) counts
    simp [hc] at this

/-- **The rounds end**, with nothing left. -/
theorem Deals.rounds (h : Deals quotas shots counts left) (hshots : shots < 4294967296)
    (hne : left = 0 ∨ counts ≠ []) :
    ∃ counts', rounds? left counts = some counts' ∧ Deals quotas shots counts' 0 := by
  induction left using Nat.strongRecOn generalizing counts with
  | ind left ih =>
    rw [rounds?]
    by_cases hdone : left = 0 ∨ counts = []
    · rw [dif_pos hdone]
      obtain rfl : left = 0 := hdone.elim id fun hc => hne.resolve_right (by simpa using hc)
      exact ⟨counts, rfl, h⟩
    · obtain ⟨hleft, hcounts⟩ := not_or.mp hdone
      obtain ⟨counts', left', hserve, hdeals, hkept⟩ := h.serve hshots h.keys
      have hlen : 0 < counts.keys.length := by
        simpa [Keyed.keys, List.length_pos_iff] using hcounts
      have hlt : left' < left := by
        have := left_of_serve? hserve
        omega
      rw [dif_neg hdone]
      split
      · next hnone => simp [hserve] at hnone
      · next hsome =>
        rw [hserve] at hsome
        obtain ⟨rfl, rfl⟩ := Prod.mk.inj (Option.some.inj hsome)
        exact ih left' hlt hdeals (.inr (hkept hcounts))

omit [DecidableLT κ] in
/-- The whole shots open the books. -/
lemma deals_counted (hquotas : quotas.Ascending) (shots : Nat) :
    Deals quotas shots (counted quotas) (shots - assigned quotas) := by
  have hbases : Keyed.Ascending (quotas.map fun (k, q) => (k, q.base)) :=
    List.pairwise_map.mpr hquotas
  refine ⟨hbases.filter _, fun k hk => ?_, fun x hx => ?_, ?_, Nat.le_refl _⟩
  · have hsub := (List.filter_sublist.map (Prod.fst : κ × Nat → κ)).subset hk
    simpa [Keyed.keys] using hsub
  · refine Nat.le_of_eq ?_
    have hmem : (x.1, x.2.base) ∈ quotas.map fun (k, q) => (k, q.base) :=
      List.mem_map.mpr ⟨x, hx, rfl⟩
    rw [counted, Keyed.countOf_filter_pos hbases, Keyed.countOf,
      hbases.lookup_eq_some_iff.mpr hmem, Option.getD_some]
  · rw [counted, Keyed.total_filter_pos, Keyed.total_bases]
    omega

omit [DecidableLT κ] [LE κ] [Std.IsLinearOrder κ] [Std.LawfulOrderLT κ] in
/-- When no key has shots the rounds start over with all keys. -/
lemma Deals.restart (h : Deals quotas shots [] left) (hquotas : quotas.Ascending) :
    Deals quotas shots (quotas.map fun (k, _) => (k, 0)) left := by
  refine ⟨List.pairwise_map.mpr hquotas, fun k hk => ?_, fun x hx => ?_, ?_, h.spare⟩
  · simpa [Keyed.keys] using hk
  · exact Nat.le_trans (h.least x hx) (Nat.zero_le _)
  · have hzero : Keyed.total (quotas.map fun (k, _) => (k, 0)) = 0 := Keyed.total_zeros quotas
    rw [hzero]
    exact h.total

/-- **Shots dealt one at a time are all dealt, and no word overflows.** -/
theorem exists_apportion? (hquotas : quotas.Ascending) (hne : quotas ≠ [])
    (hshots : shots < 4294967296) :
    ∃ counts, apportion? quotas shots = some counts ∧ Apportions quotas shots counts := by
  have hups : ∀ k ∈ ups quotas, k ∈ quotas.keys := (List.filter_sublist.map _).subset
  obtain ⟨counts, left, hserve, hdeals, -⟩ := (deals_counted hquotas shots).serve hshots hups
  obtain ⟨players, hplayers⟩ : ∃ players, players =
    if 0 < left ∧ counts = [] then quotas.map fun (k, _) => (k, 0) else counts := ⟨_, rfl⟩
  have hstart : Deals quotas shots players left ∧ (left = 0 ∨ players ≠ []) := by
    rw [hplayers]
    split
    · next hall =>
      obtain ⟨-, rfl⟩ := hall
      exact ⟨hdeals.restart hquotas, .inr (by simpa using hne)⟩
    · next hsome =>
      refine ⟨hdeals, ?_⟩
      rcases Nat.eq_zero_or_pos left with hleft | hleft
      · exact .inl hleft
      · exact .inr fun hc => hsome ⟨hleft, hc⟩
  obtain ⟨full, hrounds, hfull⟩ := hstart.1.rounds hshots hstart.2
  have hrun : apportion? quotas shots = some (full.filter (0 < ·.2)) := by
    simp only [apportion?, hserve, Option.bind_eq_bind, Option.bind_some, ← hplayers, hrounds,
      Option.pure_def]
  refine ⟨_, hrun, hfull.ascending.filter _, fun x hx => ?_, fun x hx => ?_, ?_⟩
  · obtain ⟨hx, hpos⟩ := List.mem_filter.mp hx
    exact ⟨hfull.keys _ (List.mem_map_of_mem hx), by simpa using hpos⟩
  · rw [Keyed.countOf_filter_pos hfull.ascending]
    exact hfull.least x hx
  · rw [Keyed.total_filter_pos]
    exact hfull.total

end Dealing
end QCircuit
