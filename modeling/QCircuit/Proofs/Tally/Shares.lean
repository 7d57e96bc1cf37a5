import QCircuit.Proofs.Tally.Dealing

/-!
The counts in one go.

The key at position `i` of those that play gets one shot in every full round, and one more if the
last round reaches it. So the counts can be written down without dealing, and they are what the
deal ends with.
-/

namespace QCircuit.Dealing

variable {κ : Type}

/-- The counts with something more at each position. -/
def spread (more : Nat → Nat) (i : Nat) : Keyed κ Nat → Keyed κ Nat
  | [] => []
  | (k, n) :: rest => (k, n + more i) :: spread more (i + 1) rest

lemma getElem?_spread (more : Nat → Nat) (i : Nat) (t : Keyed κ Nat) (j : Nat) :
    (spread more i t)[j]? = t[j]?.map fun p => (p.1, p.2 + more (i + j)) := by
  induction t generalizing i j with
  | nil => simp [spread]
  | cons p t ih =>
    obtain ⟨k, n⟩ := p
    cases j with
    | zero => simp [spread]
    | succ j =>
      rw [spread, List.getElem?_cons_succ, List.getElem?_cons_succ, ih,
        show i + 1 + j = i + (j + 1) by omega]

@[simp] lemma keys_spread (more : Nat → Nat) (i : Nat) (t : Keyed κ Nat) :
    (spread more i t).keys = t.keys := by
  induction t generalizing i with
  | nil => rfl
  | cons p t ih => exact congrArg (p.1 :: ·) (ih (i + 1))

@[simp] lemma length_spread (more : Nat → Nat) (i : Nat) (t : Keyed κ Nat) :
    (spread more i t).length = t.length := by
  simpa [Keyed.keys] using congrArg List.length (keys_spread more i t)

lemma spread_spread (more more' : Nat → Nat) (i : Nat) (t : Keyed κ Nat) :
    spread more' i (spread more i t) = spread (fun j => more j + more' j) i t := by
  induction t generalizing i with
  | nil => rfl
  | cons p t ih => simp [spread, ih, Nat.add_assoc]

lemma spread_congr {f g : Nat → Nat} {i : Nat} {t : Keyed κ Nat}
    (h : ∀ j, i ≤ j → j < i + t.length → f j = g j) : spread f i t = spread g i t := by
  induction t generalizing i with
  | nil => rfl
  | cons p t ih =>
    rw [spread, spread, h i (Nat.le_refl i) (by simp), ih]
    intro j hij hj
    exact h j (by omega) (by rw [List.length_cons]; omega)

lemma spread_zero (i : Nat) (t : Keyed κ Nat) : spread (fun _ => 0) i t = t := by
  induction t generalizing i with
  | nil => rfl
  | cons p t ih => rw [spread, ih, Nat.add_zero]

lemma pos_of_mem_spread {more : Nat → Nat} {i : Nat} {t : Keyed κ Nat} (ht : ∀ p ∈ t, 0 < p.2) :
    ∀ p ∈ spread more i t, 0 < p.2 := by
  intro p hp
  obtain ⟨j, hj⟩ := List.mem_iff_getElem?.mp hp
  rw [getElem?_spread] at hj
  obtain ⟨q, hq, rfl⟩ := Option.map_eq_some_iff.mp hj
  exact Nat.add_pos_left (ht q (List.mem_of_getElem? hq)) _

/-- A table of the same keys in which no count is positive. -/
lemma eq_zeros {α : Type} {t : Keyed κ Nat} {u : Keyed κ α} (hkeys : t.keys = u.keys)
    (h : t.countP (0 < ·.2) = 0) : t = u.map fun p => (p.1, 0) := by
  have ht : t = t.keys.map fun k => (k, 0) := by
    rw [Keyed.keys, List.map_map]
    refine (List.map_id t).symm.trans (List.map_congr_left fun p hp => ?_)
    have hzero := List.countP_eq_zero.mp h p hp
    simp only [decide_eq_true_eq, Nat.pos_iff_ne_zero, ne_eq, not_not] at hzero
    exact Prod.ext rfl hzero
  rw [ht, hkeys, Keyed.keys, List.map_map]
  rfl

/-! ### Shares -/

lemma dealt_of_le {shots players i : Nat} (h : shots ≤ players) (hi : i < players) :
    dealt shots players i = if i < shots then 1 else 0 := by
  unfold dealt
  rcases Nat.eq_or_lt_of_le h with rfl | h
  · simp [hi, Nat.div_self (Nat.zero_lt_of_lt hi)]
  · rw [Nat.div_eq_of_lt h, Nat.mod_eq_of_lt h, Nat.zero_add]

lemma spread_dealt_zero (players i : Nat) (t : Keyed κ Nat) : spread (dealt 0 players) i t = t := by
  rw [spread_congr (g := fun _ => 0) fun j _ _ => by simp [dealt], spread_zero]

/-- A full round gives each player one shot. -/
lemma dealt_add {shots players : Nat} (hplayers : 0 < players) (i : Nat) :
    dealt (players + shots) players i = 1 + dealt shots players i := by
  rw [dealt, dealt, Nat.add_div_left shots hplayers, Nat.add_mod_left]
  omega

lemma deal_all (shots players i : Nat) (t : Keyed κ Nat) :
    deal shots players (fun _ => true) i t = spread (dealt shots players) i t := by
  induction t generalizing i with
  | nil => rfl
  | cons p t ih => simp [deal, spread, ih]

/-- Dealing to the keys that have shots, where the others are left out afterwards. -/
lemma filter_deal_pos (shots players i : Nat) (t : Keyed κ Nat) :
    (deal shots players (0 < ·) i t).filter (0 < ·.2) =
      spread (dealt shots players) i (t.filter (0 < ·.2)) := by
  induction t generalizing i with
  | nil => rfl
  | cons p t ih =>
    obtain ⟨k, n⟩ := p
    rcases Nat.eq_zero_or_pos n with rfl | hn
    · simpa [deal] using ih i
    · simpa [deal, spread, hn, Nat.add_pos_left hn] using ih (i + 1)

/-! ### The round-up -/

lemma roundUp_zero (quotas : Keyed κ Quota) :
    roundUp 0 quotas = (quotas.map fun (k, q) => (k, q.base), 0) := by
  induction quotas with
  | nil => rfl
  | cons x quotas ih =>
    obtain ⟨k, q⟩ := x
    simp [roundUp, ih]

lemma keys_roundUp (left : Nat) (quotas : Keyed κ Quota) :
    (roundUp left quotas).1.keys = quotas.keys := by
  induction quotas generalizing left with
  | nil => rfl
  | cons x quotas ih => exact congrArg (x.1 :: ·) (ih _)

section Serving

variable [LT κ] [DecidableLT κ] [DecidableEq κ] [LE κ] [Std.IsLinearOrder κ] [Std.LawfulOrderLT κ]

lemma eq_of_oneMore? {n m : Nat} (h : oneMore? n = some m) : m = n + 1 := by
  unfold oneMore? at h
  split at h
  · exact (Option.some.inj h).symm
  · simp at h

omit [LE κ] [Std.IsLinearOrder κ] [Std.LawfulOrderLT κ] in
lemma serve?_nil (left : Nat) (counts : Keyed κ Nat) :
    serve? left [] counts = some (counts, left) := by
  cases left <;> rfl

/-- A key behind those of `done`: its count, and the table with another one. -/
lemma countOf_split {k : κ} {done t : Keyed κ Nat} (hdone : ∀ p ∈ done, p.1 < k) (n : Nat) :
    Keyed.countOf (done ++ (k, n) :: t) k = n := by
  rw [Keyed.countOf, Keyed.lookup_split hdone, Keyed.lookup_cons_ite, if_pos rfl, Option.getD_some]

lemma insert_split {k : κ} {done t : Keyed κ Nat} (hdone : ∀ p ∈ done, p.1 < k) (n m : Nat) :
    Keyed.insert k m (done ++ (k, n) :: t) = (done ++ [(k, m)]) ++ t := by
  rw [Keyed.insert, Keyed.alter_append hdone, Keyed.alter_self, List.append_assoc]
  rfl

/-- The same for the key of the first quota, which may have no whole shots. -/
lemma counted_split {k : κ} {q : Quota} {done : Keyed κ Nat} {quotas : Keyed κ Quota}
    (hdone : ∀ p ∈ done, p.1 < k) (hquotas : ∀ x ∈ quotas, k < x.1) (m : Nat) :
    Keyed.countOf (done ++ counted ((k, q) :: quotas)) k = q.base ∧
      Keyed.insert k m (done ++ counted ((k, q) :: quotas)) =
        (done ++ [(k, m)]) ++ counted quotas := by
  rcases Nat.eq_zero_or_pos q.base with hzero | hpos
  · have hlater : ∀ p ∈ counted quotas, k < p.1 := by
      intro p hp
      obtain ⟨x, hx, rfl⟩ := List.mem_map.mp (List.mem_filter.mp hp).1
      exact hquotas x hx
    have hcounted : counted ((k, q) :: quotas) = counted quotas := by simp [counted, hzero]
    have hnone : List.lookup k (counted quotas) = none :=
      Keyed.lookup_eq_none_iff.mpr fun hc => by
        obtain ⟨n, hn⟩ := Keyed.mem_keys.mp hc
        exact Std.lt_irrefl (hlater _ hn)
    rw [hcounted, Keyed.countOf, Keyed.lookup_split hdone, hnone, hzero, Keyed.insert,
      Keyed.alter_append hdone, Keyed.alter_of_lt hlater, List.append_assoc]
    exact ⟨rfl, rfl⟩
  · have hcounted : counted ((k, q) :: quotas) = (k, q.base) :: counted quotas := by
      simp [counted, hpos]
    rw [hcounted]
    exact ⟨countOf_split hdone _, insert_split hdone _ _⟩

/-- Serving the keys that round up. -/
lemma serve?_ups {left left' : Nat} (done : Keyed κ Nat) {counts : Keyed κ Nat}
    {quotas : Keyed κ Quota}
    (hdone : ∀ p ∈ done, ∀ x ∈ quotas, p.1 < x.1) (hquotas : quotas.Ascending)
    (h : serve? left (ups quotas) (done ++ counted quotas) = some (counts, left')) :
    counts = done ++ (roundUp left quotas).1.filter (0 < ·.2) ∧
      left' = (roundUp left quotas).2 := by
  induction quotas generalizing left done with
  | nil =>
    obtain ⟨rfl, rfl⟩ := Prod.mk.inj (Option.some.inj ((serve?_nil _ _).symm.trans h))
    exact ⟨rfl, rfl⟩
  | cons x quotas ih =>
    obtain ⟨k, q⟩ := x
    obtain ⟨hk, hquotas⟩ := List.pairwise_cons.mp hquotas
    have hbefore : ∀ p ∈ done, p.1 < k := fun p hp => hdone p hp (k, q) List.mem_cons_self
    have hnext : ∀ n, ∀ p ∈ done ++ [(k, n)], ∀ x ∈ quotas, p.1 < x.1 := by
      intro n p hp x hx
      rcases List.mem_append.mp hp with hp | hp
      · exact hdone p hp x (List.mem_cons_of_mem _ hx)
      · obtain rfl := List.mem_singleton.mp hp
        exact hk x hx
    by_cases hup : q.roundsUp = true
    · have hups : ups ((k, q) :: quotas) = k :: ups quotas := by simp [ups, hup]
      rw [hups] at h
      cases left with
      | zero =>
        obtain ⟨rfl, rfl⟩ := Prod.mk.inj (Option.some.inj h)
        rw [roundUp_zero]
        exact ⟨rfl, rfl⟩
      | succ left =>
        obtain ⟨n, hn, h⟩ := Option.bind_eq_some_iff.mp h
        obtain ⟨hcount, hinsert⟩ := counted_split (q := q) hbefore hk n
        rw [hcount] at hn
        obtain rfl := eq_of_oneMore? hn
        rw [hinsert] at h
        obtain ⟨rfl, rfl⟩ := ih _ (hnext _) hquotas h
        simp [roundUp, hup]
    · have hups : ups ((k, q) :: quotas) = ups quotas := by simp [ups, hup]
      rw [hups] at h
      rcases Nat.eq_zero_or_pos q.base with hzero | hpos
      · have hcounted : counted ((k, q) :: quotas) = counted quotas := by simp [counted, hzero]
        rw [hcounted] at h
        have hafter : ∀ p ∈ done, ∀ x ∈ quotas, p.1 < x.1 := fun p hp x hx =>
          hdone p hp x (List.mem_cons_of_mem _ hx)
        obtain ⟨rfl, rfl⟩ := ih _ hafter hquotas h
        simp [roundUp, hup, hzero]
      · have hcounted : counted ((k, q) :: quotas) = [(k, q.base)] ++ counted quotas := by
          simp [counted, hpos]
        rw [hcounted, ← List.append_assoc] at h
        obtain ⟨rfl, rfl⟩ := ih _ (hnext _) hquotas h
        simp [roundUp, hup, hpos]

/-- One round. -/
lemma serve?_round {left left' : Nat} (i : Nat) (done : Keyed κ Nat) {counts t : Keyed κ Nat}
    (hdone : ∀ p ∈ done, ∀ x ∈ t, p.1 < x.1) (ht : t.Ascending)
    (h : serve? left t.keys (done ++ t) = some (counts, left')) :
    counts = done ++ spread (fun j => if j < i + left then 1 else 0) i t ∧
      left' = left - t.length := by
  refine ⟨?_, by simpa [Keyed.keys] using left_of_serve? h⟩
  induction t generalizing left i done with
  | nil =>
    obtain ⟨rfl, -⟩ := Prod.mk.inj (Option.some.inj ((serve?_nil _ _).symm.trans h))
    rfl
  | cons p t ih =>
    obtain ⟨k, n⟩ := p
    obtain ⟨hk, ht⟩ := List.pairwise_cons.mp ht
    have hbefore : ∀ p ∈ done, p.1 < k := fun p hp => hdone p hp (k, n) List.mem_cons_self
    cases left with
    | zero =>
      obtain ⟨rfl, -⟩ := Prod.mk.inj (Option.some.inj h)
      rw [spread_congr (g := fun _ => 0) fun j hj _ => if_neg (by omega), spread_zero]
    | succ left =>
      obtain ⟨m, hm, h⟩ := Option.bind_eq_some_iff.mp h
      rw [countOf_split hbefore] at hm
      obtain rfl := eq_of_oneMore? hm
      rw [insert_split hbefore] at h
      have hnext : ∀ p ∈ done ++ [(k, n + 1)], ∀ x ∈ t, p.1 < x.1 := by
        intro p hp x hx
        rcases List.mem_append.mp hp with hp | hp
        · exact hdone p hp x (List.mem_cons_of_mem _ hx)
        · obtain rfl := List.mem_singleton.mp hp
          exact hk x hx
      rw [ih (i + 1) _ hnext ht h, spread, if_pos (by omega), List.append_assoc,
        List.singleton_append, show i + 1 + left = i + (left + 1) by omega]

/-- **All rounds in one go.** -/
theorem rounds?_eq {left : Nat} {t counts : Keyed κ Nat} (ht : t.Ascending)
    (h : rounds? left t = some counts) : counts = spread (dealt left t.length) 0 t := by
  induction left using Nat.strongRecOn generalizing t with
  | ind left ih =>
    rw [rounds?] at h
    by_cases hdone : left = 0 ∨ t = []
    · rw [dif_pos hdone] at h
      obtain rfl := Option.some.inj h
      rcases hdone with rfl | rfl
      · rw [spread_dealt_zero]
      · rfl
    · rw [dif_neg hdone] at h
      obtain ⟨hleft, hne⟩ := not_or.mp hdone
      have hlen : 0 < t.length := List.length_pos_iff.mpr hne
      split at h
      · simp at h
      · next t' left' hserve =>
        obtain ⟨ht', hleft'⟩ := serve?_round 0 [] (by simp) ht hserve
        rw [List.nil_append] at ht'
        subst ht' hleft'
        rw [ih _ (by omega) (ht.of_keys_eq (keys_spread _ _ _)) h, length_spread, spread_spread]
        refine spread_congr fun j _ hj => ?_
        rcases Nat.lt_or_ge left t.length with hlt | hge
        · rw [Nat.sub_eq_zero_of_le (Nat.le_of_lt hlt), dealt_of_le (Nat.le_of_lt hlt) (by omega)]
          simp [dealt]
        · obtain ⟨more, rfl⟩ := Nat.exists_eq_add_of_le hge
          rw [dealt_add hlen, Nat.add_sub_cancel_left, if_pos (by omega)]

/-- **The counts in one go are those of the deal.** -/
theorem apportion?_eq {quotas : Keyed κ Quota} {shots : Nat} {counts : Keyed κ Nat}
    (hquotas : quotas.Ascending) (h : apportion? quotas shots = some counts) :
    counts = apportion quotas shots := by
  obtain ⟨⟨served, left⟩, hserve, h⟩ := Option.bind_eq_some_iff.mp h
  obtain ⟨full, hrounds, h⟩ := Option.bind_eq_some_iff.mp h
  obtain rfl := Option.some.inj h
  obtain ⟨rfl, rfl⟩ := serve?_ups [] (by simp) hquotas hserve
  obtain ⟨all, hcounts⟩ : ∃ all, all = (roundUp (shots - assigned quotas) quotas).1 := ⟨_, rfl⟩
  obtain ⟨left, hleft⟩ : ∃ left, left = (roundUp (shots - assigned quotas) quotas).2 := ⟨_, rfl⟩
  have hkeys : all.keys = quotas.keys := hcounts ▸ keys_roundUp _ _
  have hall : all.Ascending := hquotas.of_keys_eq hkeys
  simp only [List.nil_append, ← hcounts, ← hleft] at hrounds
  have happortion : apportion quotas shots =
      (if all.countP (0 < ·.2) = 0 then deal left all.length (fun _ => true) 0 all
        else deal left (all.countP (0 < ·.2)) (0 < ·) 0 all).filter (0 < ·.2) := by
    rw [hcounts, hleft]
    rfl
  rw [happortion]
  split
  · next hnone =>
    have hnil : all.filter (0 < ·.2) = [] := by
      rwa [← List.length_eq_zero_iff, ← List.countP_eq_length_filter]
    rw [hnil] at hrounds
    rw [deal_all]
    by_cases hleft0 : left = 0
    · subst hleft0
      rw [if_neg (by simp)] at hrounds
      rw [rounds?_eq .nil hrounds, spread_dealt_zero all.length 0 all, hnil]
      rfl
    · rw [if_pos ⟨Nat.pos_of_ne_zero hleft0, rfl⟩, ← eq_zeros hkeys hnone] at hrounds
      rw [rounds?_eq hall hrounds]
  · next hsome =>
    have hne : all.filter (0 < ·.2) ≠ [] := by
      rwa [Ne, ← List.length_eq_zero_iff, ← List.countP_eq_length_filter]
    rw [if_neg fun hc => hne hc.2] at hrounds
    rw [rounds?_eq (hall.filter _) hrounds, filter_deal_pos, ← List.countP_eq_length_filter]
    refine List.filter_eq_self.mpr fun p hp => ?_
    simpa using pos_of_mem_spread (fun p hp => by simpa using (List.mem_filter.mp hp).2) p hp

end Serving

end QCircuit.Dealing

namespace QCircuit.Tally

/-- What each key is owed. -/
def quotas (t : Tally) : Keyed String Quota :=
  t.probabilities.map fun (k, p) => (k, Quota.ofProbability t.shots p)

/-- **Every shot is dealt, and none twice.** The deal of a distribution over some keys ends with no
word overflowing, and the counts are what it ends with: each key has at least its whole shots, the
keys are those of the distribution that have any, and all counts together are the shots, or the
whole shots if these are more. The rounding of the products has no part in it: it holds of any
quotas of the keys. -/
theorem counts_exact (t : Tally) (hkeys : t.probabilities.Ascending) (hne : t.probabilities ≠ [])
    (hshots : t.shots < 4294967296) :
    (Dealing.apportion? t.quotas t.shots = some t.counts ∧
      Dealing.Apportions t.quotas t.shots t.counts) ∧
    ∀ quotas : Keyed String Quota, quotas.keys = t.probabilities.keys →
      Dealing.apportion? quotas t.shots = some (apportion quotas t.shots) ∧
        Dealing.Apportions quotas t.shots (apportion quotas t.shots) := by
  have hall : ∀ quotas : Keyed String Quota, quotas.keys = t.probabilities.keys →
      Dealing.apportion? quotas t.shots = some (apportion quotas t.shots) ∧
        Dealing.Apportions quotas t.shots (apportion quotas t.shots) := by
    intro quotas hquotas
    have hasc : quotas.Ascending := hkeys.of_keys_eq hquotas
    have hsome : quotas ≠ [] := by
      rintro rfl
      exact hne (List.map_eq_nil_iff.mp hquotas.symm)
    obtain ⟨counts, hdeal, happortions⟩ := Dealing.exists_apportion? hasc hsome hshots
    obtain rfl := Dealing.apportion?_eq hasc hdeal
    exact ⟨hdeal, happortions⟩
  refine ⟨hall t.quotas ?_, hall⟩
  simp [quotas, Keyed.keys, Function.comp_def]

/-- Three keys with whole shots, of which the last rounds up, and one key without any. -/
def unevenShares : Tally := ⟨[("00", 0.33), ("01", 0.33), ("10", 0.17), ("11", 0.04)], 10⟩

theorem unevenShares_exact :
    unevenShares.probabilities.Ascending ∧ unevenShares.probabilities ≠ [] ∧
      unevenShares.shots < 4294967296 ∧
      Dealing.apportion? unevenShares.quotas 10 = some [("00", 4), ("01", 4), ("10", 2)] ∧
      Keyed.total [("00", 4), ("01", 4), ("10", 2)] = max 10 (assigned unevenShares.quotas) := by
  have hcounts : unevenShares.counts = [("00", 4), ("01", 4), ("10", 2)] := by decide +kernel
  obtain ⟨⟨hdeal, happortions⟩, -⟩ :=
    counts_exact unevenShares (by decide) (by decide) (by decide)
  rw [hcounts] at hdeal happortions
  exact ⟨by decide, by decide, by decide, hdeal, happortions.total⟩

end QCircuit.Tally
