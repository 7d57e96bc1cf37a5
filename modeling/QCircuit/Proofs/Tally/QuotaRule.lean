import QCircuit.Proofs.Tally.Distributions

/-!
When no key gets more than one shot above its whole ones.

A key can be given more twice: because its product rounds up, and in the rounds, where the keys
without shots take no part and leave their share to the others. So the rounds must be over before
they reach a key again, or one that was rounded up.
-/

namespace QCircuit.Dealing

variable {κ : Type}

/-- The keys that take part in the rounds: those that have shots once the round-up is over. -/
def players (quotas : Keyed κ Quota) : Keyed κ Quota :=
  quotas.filter fun (_, q) => 0 < q.base || q.roundsUp

/-- What is left when all keys that round up have been served. -/
def surplus (quotas : Keyed κ Quota) (shots : Nat) : Nat :=
  shots - assigned quotas - (ups quotas).length

/-- The counts before the rounds, when all keys that round up have been served. -/
def rounded (quotas : Keyed κ Quota) : Keyed κ Nat :=
  quotas.map fun (k, q) => (k, q.base + q.roundsUp.toNat)

/-! ### The round-up -/

lemma ups_cons (k : κ) (q : Quota) (quotas : Keyed κ Quota) :
    ups ((k, q) :: quotas) = if q.roundsUp then k :: ups quotas else ups quotas := by
  by_cases hq : q.roundsUp <;> simp [ups, hq]

lemma left_roundUp (left : Nat) (quotas : Keyed κ Quota) :
    (roundUp left quotas).2 = left - (ups quotas).length := by
  induction quotas generalizing left with
  | nil => rfl
  | cons x quotas ih =>
    obtain ⟨k, q⟩ := x
    rw [roundUp, ups_cons]
    cases q.roundsUp with
    | false => simp [ih]
    | true =>
      simp only [if_true, ih, List.length_cons]
      omega

lemma roundUp_of_le {left : Nat} {quotas : Keyed κ Quota} (h : (ups quotas).length ≤ left) :
    (roundUp left quotas).1 = rounded quotas := by
  induction quotas generalizing left with
  | nil => rfl
  | cons x quotas ih =>
    obtain ⟨k, q⟩ := x
    rw [ups_cons] at h
    rw [roundUp]
    cases hq : q.roundsUp with
    | false =>
      rw [hq] at h
      simp [rounded, hq, ih h]
    | true =>
      simp only [hq, if_true, List.length_cons] at h
      have hone : min left 1 = 1 := by omega
      have hrest : (ups quotas).length ≤ left - 1 := by omega
      simp [rounded, hq, hone, ih hrest]

/-- Before the rounds are dealt: how many keys take part, and what is left. -/
lemma apportion_eq (quotas : Keyed κ Quota) (shots : Nat) :
    apportion quotas shots =
      let counts := (roundUp (shots - assigned quotas) quotas).1
      let left := surplus quotas shots
      let counted := counts.filter (0 < ·.2)
      if counted = [] then (spread (dealt left counts.length) 0 counts).filter (0 < ·.2)
      else spread (dealt left counted.length) 0 counted := by
  have hunfold : apportion quotas shots =
      let counts := (roundUp (shots - assigned quotas) quotas).1
      let left := (roundUp (shots - assigned quotas) quotas).2
      let counted := counts.countP (0 < ·.2)
      (if counted = 0 then deal left counts.length (fun _ => true) 0 counts
        else deal left counted (0 < ·) 0 counts).filter (0 < ·.2) := rfl
  rw [hunfold]
  simp only [left_roundUp, List.countP_eq_length_filter, List.length_eq_zero_iff, surplus]
  split
  · rw [deal_all]
  · rw [filter_deal_pos]

/-- All that is left goes to keys that round up. -/
lemma apportion_of_le_ups {quotas : Keyed κ Quota} {shots : Nat}
    (h : shots - assigned quotas ≤ (ups quotas).length) :
    apportion quotas shots = (roundUp (shots - assigned quotas) quotas).1.filter (0 < ·.2) := by
  have hnone : surplus quotas shots = 0 := Nat.sub_eq_zero_of_le h
  rw [apportion_eq]
  simp only [hnone, spread_dealt_zero]
  split <;> rfl

lemma filter_rounded (quotas : Keyed κ Quota) :
    (rounded quotas).filter (0 < ·.2) = rounded (players quotas) := by
  rw [rounded, List.filter_map, rounded, players]
  congr 1
  refine List.filter_congr fun x _ => ?_
  cases hq : x.2.roundsUp <;> simp [hq]

lemma rounded_eq_nil {quotas : Keyed κ Quota} : rounded quotas = [] ↔ quotas = [] :=
  List.map_eq_nil_iff

lemma keys_rounded (quotas : Keyed κ Quota) : (rounded quotas).keys = quotas.keys := by
  simp [rounded, Keyed.keys, Function.comp_def]

/-! ### Counts above the whole shots -/

/-- The rounds give nobody a second shot exactly when they end before they reach a player again, or
one that was rounded up. -/
lemma dealt_le_iff {ps : Keyed κ Quota} (hps : ps ≠ []) {left : Nat} :
    (∀ j x, ps[j]? = some x → x.2.roundsUp.toNat + dealt left ps.length j ≤ 1) ↔
      left ≤ ps.length ∧ ∀ x ∈ ps.take left, x.2.roundsUp = false := by
  have hpos : 0 < ps.length := List.length_pos_iff.mpr hps
  constructor
  · intro h
    have hle : left ≤ ps.length := by
      by_contra hlt
      obtain ⟨more, rfl⟩ := Nat.exists_eq_add_of_lt (Nat.lt_of_not_le hlt)
      have hfirst := h 0 ps[0] (List.getElem?_eq_getElem hpos)
      rw [Nat.add_assoc, dealt_add hpos] at hfirst
      have hnext : 0 < dealt (more + 1) ps.length 0 := by
        unfold dealt
        split
        · exact Nat.add_pos_right _ Nat.one_pos
        · next hmod =>
          have hdiv := Nat.div_add_mod (more + 1) ps.length
          refine Nat.add_pos_left (Nat.pos_of_ne_zero fun hc => ?_) _
          rw [hc] at hdiv
          omega
      omega
    refine ⟨hle, fun x hx => ?_⟩
    obtain ⟨j, hj, rfl⟩ := List.mem_take_iff_getElem.mp hx
    have hshare := h j _ (List.getElem?_eq_getElem (by omega))
    rw [dealt_of_le hle (by omega), if_pos (by omega)] at hshare
    simpa using hshare
  · rintro ⟨hle, hup⟩ j x hj
    obtain ⟨hlt, rfl⟩ := List.getElem?_eq_some_iff.mp hj
    rw [dealt_of_le hle hlt]
    split
    · next hj =>
      rw [hup _ (List.mem_take_iff_getElem.mpr ⟨j, by omega, rfl⟩)]
      exact Nat.le_refl 1
    · cases ps[j].2.roundsUp <;> simp

section Counts

variable [LT κ] [DecidableEq κ] [LE κ] [Std.IsLinearOrder κ] [Std.LawfulOrderLT κ]

omit [Std.IsLinearOrder κ] in
/-- The round-up gives a key one shot at most. -/
lemma countOf_roundUp_le (left : Nat) {quotas : Keyed κ Quota} (hquotas : quotas.Ascending)
    {x : κ × Quota} (hx : x ∈ quotas) :
    Keyed.countOf (roundUp left quotas).1 x.1 ≤ x.2.base + 1 := by
  induction quotas generalizing left with
  | nil => simp at hx
  | cons y quotas ih =>
    obtain ⟨k, q⟩ := y
    obtain ⟨hk, hquotas⟩ := List.pairwise_cons.mp hquotas
    rw [roundUp, Keyed.countOf, Keyed.lookup_cons_ite]
    rcases List.mem_cons.mp hx with rfl | hx
    · rw [if_pos rfl, Option.getD_some]
      show q.base + _ ≤ q.base + 1
      split <;> omega
    · rw [if_neg (Std.ne_of_lt (hk x hx)).symm]
      exact ih _ hquotas hx

/-- A key that rounds up is one above its whole shots before the rounds. -/
lemma countOf_spread_le_iff {quotas ps : Keyed κ Quota} (hquotas : quotas.Ascending)
    (hps : ps.Sublist quotas) (more : Nat → Nat) :
    (∀ x ∈ quotas, Keyed.countOf (spread more 0 (rounded ps)) x.1 ≤ x.2.base + 1) ↔
      ∀ j x, ps[j]? = some x → x.2.roundsUp.toNat + more j ≤ 1 := by
  have hasc : (spread more 0 (rounded ps)).Ascending :=
    (show ps.Ascending from hquotas.sublist hps).of_keys_eq
      ((keys_spread _ _ _).trans (keys_rounded ps))
  have hget : ∀ j, (spread more 0 (rounded ps))[j]? =
      ps[j]?.map fun x => (x.1, x.2.base + x.2.roundsUp.toNat + more j) := by
    intro j
    rw [getElem?_spread, rounded, List.getElem?_map, Option.map_map, Nat.zero_add]
    rfl
  constructor
  · intro h j x hj
    have hmem : (x.1, x.2.base + x.2.roundsUp.toNat + more j) ∈ spread more 0 (rounded ps) :=
      List.mem_of_getElem? (i := j) (by rw [hget, hj]; rfl)
    have hle := h x (hps.subset (List.mem_of_getElem? hj))
    rw [Keyed.countOf, hasc.lookup_eq_some_iff.mpr hmem, Option.getD_some] at hle
    omega
  · intro h x hx
    rw [Keyed.countOf]
    rcases hn : List.lookup x.1 (spread more 0 (rounded ps)) with _ | n
    · exact Nat.zero_le _
    · obtain ⟨j, hj⟩ := List.mem_iff_getElem?.mp (hasc.lookup_eq_some_iff.mp hn)
      rw [hget] at hj
      obtain ⟨y, hy, heq⟩ := Option.map_eq_some_iff.mp hj
      obtain ⟨hkey, rfl⟩ := Prod.mk.inj heq
      -- a key has one quota
      have hmem : (x.1, y.2) ∈ quotas := hkey ▸ hps.subset (List.mem_of_getElem? hy)
      have hsome := (hquotas.lookup_eq_some_iff.mpr hmem).symm.trans
        (hquotas.lookup_eq_some_iff.mpr hx)
      have hle := h j y hy
      rw [Option.some.inj hsome] at hle ⊢
      rw [Option.getD_some]
      omega

/-- **When no key gets more than one shot above its whole ones.** -/
theorem countOf_le_succ_iff {quotas : Keyed κ Quota} {shots : Nat} (hquotas : quotas.Ascending)
    (hleft : shots - assigned quotas ≤ quotas.length) :
    (∀ x ∈ quotas, (apportion quotas shots).countOf x.1 ≤ x.2.base + 1) ↔
      players quotas = [] ∨ (surplus quotas shots ≤ (players quotas).length ∧
        ∀ x ∈ (players quotas).take (surplus quotas shots), x.2.roundsUp = false) := by
  rcases Nat.le_total (shots - assigned quotas) (ups quotas).length with hle | hge
  · -- the rounds are not reached
    have hnone : surplus quotas shots = 0 := Nat.sub_eq_zero_of_le hle
    refine iff_of_true (fun x hx => ?_) (.inr (by simp [hnone]))
    rw [apportion_of_le_ups hle,
      Keyed.countOf_filter_pos (hquotas.of_keys_eq (keys_roundUp _ quotas))]
    exact countOf_roundUp_le _ hquotas hx
  · rw [apportion_eq]
    simp only [roundUp_of_le hge, filter_rounded, rounded_eq_nil]
    by_cases hplayers : players quotas = []
    · -- all keys take part, and there are enough of them
      have hzero : ∀ x ∈ quotas, x.2.roundsUp = false := by
        intro x hx
        have hout := List.filter_eq_nil_iff.mp hplayers x hx
        simp only [Bool.or_eq_true, not_or, Bool.not_eq_true] at hout
        exact hout.2
      refine iff_of_true ?_ (.inl hplayers)
      rw [if_pos hplayers]
      have hasc : (spread (dealt (surplus quotas shots) (rounded quotas).length) 0
          (rounded quotas)).Ascending :=
        hquotas.of_keys_eq ((keys_spread _ _ _).trans (keys_rounded quotas))
      simp only [Keyed.countOf_filter_pos hasc]
      refine (countOf_spread_le_iff hquotas (List.Sublist.refl quotas) _).mpr fun j x hj => ?_
      obtain ⟨hlt, -⟩ := List.getElem?_eq_some_iff.mp hj
      have hlen : (rounded quotas).length = quotas.length := List.length_map ..
      have henough : surplus quotas shots ≤ quotas.length := Nat.le_trans (Nat.sub_le _ _) hleft
      rw [hzero x (List.mem_of_getElem? hj), hlen, dealt_of_le henough hlt]
      split <;> simp
    · have hsub : (players quotas).Sublist quotas := List.filter_sublist
      rw [if_neg hplayers, countOf_spread_le_iff hquotas hsub]
      have hlen : (rounded (players quotas)).length = (players quotas).length := List.length_map ..
      rw [hlen, dealt_le_iff hplayers]
      simp [hplayers]

end Counts

end QCircuit.Dealing

namespace QCircuit.Tally

/-- **The quota rule, and when it holds.** Probabilities that make one leave over at most a shot for
each key. If no more are left over, no key gets more than one shot above its whole ones exactly when
no key takes part in the rounds, or the rounds end before they reach a key again or one that was
rounded up. -/
theorem counts_le_succ_iff (t : Tally) (hkeys : t.probabilities.Ascending)
    (hshots : t.shots < 4294967296) :
    (t.IsDistribution → assigned t.quotas ≤ t.shots ∧
      t.shots - assigned t.quotas ≤ t.probabilities.length) ∧
    (t.shots - assigned t.quotas ≤ t.probabilities.length →
      ((∀ x ∈ t.quotas, t.counts.countOf x.1 ≤ x.2.base + 1) ↔
        Dealing.players t.quotas = [] ∨
          (Dealing.surplus t.quotas t.shots ≤ (Dealing.players t.quotas).length ∧
            ∀ x ∈ (Dealing.players t.quotas).take (Dealing.surplus t.quotas t.shots),
              x.2.roundsUp = false))) := by
  have hquotas : t.quotas.Ascending :=
    hkeys.of_keys_eq (by simp [quotas, Keyed.keys, Function.comp_def])
  refine ⟨fun h => h.leftover hshots, fun hleft => ?_⟩
  exact Dealing.countOf_le_succ_iff hquotas (by simpa [quotas] using hleft)

/-- Three keys with one whole shot each and one key without any; the probabilities make one. -/
def spareShot : Tally where
  probabilities := [("00", 0.3125), ("01", 0.3125), ("10", 0.3125), ("11", 0.0625)]
  shots := 4

theorem spareShot_le_succ :
    spareShot.probabilities.Ascending ∧ spareShot.shots < 4294967296 ∧ spareShot.IsDistribution ∧
      spareShot.shots - assigned spareShot.quotas ≤ spareShot.probabilities.length ∧
      Dealing.surplus spareShot.quotas spareShot.shots = 1 ∧
      ∀ x ∈ spareShot.quotas, spareShot.counts.countOf x.1 ≤ x.2.base + 1 := by
  have hquotas : spareShot.quotas =
      [("00", ⟨1, false⟩), ("01", ⟨1, false⟩), ("10", ⟨1, false⟩), ("11", ⟨0, false⟩)] := by
    decide +kernel
  have hdistribution : spareShot.IsDistribution :=
    ⟨by decide +kernel, by decide +kernel, by decide +kernel⟩
  obtain ⟨hleft, hrule⟩ := counts_le_succ_iff spareShot (by decide) (by decide)
  obtain ⟨-, hspare⟩ := hleft hdistribution
  refine ⟨by decide, by decide, hdistribution, hspare, by rw [hquotas]; decide, ?_⟩
  refine (hrule hspare).mpr (.inr ?_)
  rw [hquotas]
  decide

/-- A key with one whole shot beside five keys without any; the probabilities make one. -/
def aloneInRounds : Tally where
  probabilities := [("000", 0.375), ("001", 0.125), ("010", 0.125), ("011", 0.125), ("100", 0.125),
    ("101", 0.125)]
  shots := 3

/-- The shots that are left over all go to the only key that takes part in the rounds. -/
theorem aloneInRounds_exceeds :
    aloneInRounds.probabilities.Ascending ∧ aloneInRounds.IsDistribution ∧
      assigned aloneInRounds.quotas ≤ aloneInRounds.shots ∧
      aloneInRounds.shots - assigned aloneInRounds.quotas ≤ aloneInRounds.probabilities.length ∧
      ("000", ⟨1, false⟩) ∈ aloneInRounds.quotas ∧ aloneInRounds.counts.countOf "000" = 1 + 2 ∧
      ¬ ∀ x ∈ aloneInRounds.quotas, aloneInRounds.counts.countOf x.1 ≤ x.2.base + 1 := by
  have hdistribution : aloneInRounds.IsDistribution :=
    ⟨by decide +kernel, by decide +kernel, by decide +kernel⟩
  exact ⟨by decide, hdistribution, by decide +kernel⟩

end QCircuit.Tally
