import QCircuit.Proofs.Keyed
import QCircuit.Proofs.Number.Exact
import QCircuit.Reading

/-!
Which strings are read.

The source alone fixes the strings that are drawn and the words that decide on them; the
probabilities say where the drawing ends. A string that is no key has probability zero, and the
least words give the number zero, which is not more. So such a string can be read, and only with one
of these words.
-/

namespace QCircuit.Reading

open Binary64

/-- The number of a word is zero if all its high 53 bits are. -/
lemma fraction_le_zero_iff (word : UInt64) : fraction word ≤ 0.0 ↔ word.toNat < 2048 := by
  have hword := word.toNat_lt
  obtain ⟨n, hn⟩ : ∃ n, n = word.toNat / 2048 := ⟨_, rfl⟩
  have hstands : Stands n.toFloat n := stands_toFloat (by simp only [lead]; omega)
  have hwhole : (n : ℚ) = 0 ∨ 1 ≤ (n : ℚ) := by
    rcases Nat.eq_zero_or_pos n with rfl | hpos
    · exact .inl Nat.cast_zero
    · exact .inr (by exact_mod_cast hpos)
  have hquotient : fraction word ≤ 0.0 ↔ (n : ℚ) / 2 ^ 53 = 0 := by
    rw [fraction, ← hn]
    exact (hstands.div_two_pow hwhole).le_zero_iff
  rw [hquotient, div_eq_zero_iff, or_iff_left (by norm_num), Nat.cast_eq_zero]
  omega

/-! ### Trials -/

/-- A string that was drawn, with the word that decides on it. -/
structure Trial where
  key : String
  word : UInt64

namespace Trial

variable (probabilities : Keyed String Float) (t : Trial)

/-- The number of the word is at most the probability of the string. -/
def accepted : Bool :=
  decide (fraction t.word ≤ (probabilities.lookup t.key).getD 0.0)

/-- No key, and decided by a word whose number is zero. -/
def Stray : Prop := t.key ∉ probabilities.keys ∧ t.word.toNat < 2048

variable {probabilities t} in
/-- A string that is no key is accepted by the least words only. -/
lemma accepted_iff_of_absent (h : t.key ∉ probabilities.keys) :
    t.accepted probabilities = true ↔ t.word.toNat < 2048 := by
  rw [accepted, decide_eq_true_iff, Keyed.lookup_eq_none_iff.mpr h, Option.getD_none,
    fraction_le_zero_iff]

end Trial

section Sources

variable {σ : Type} (next : Source σ) (tries width : ℕ)

/-- What a source gives for a number of attempts. There are fewer trials if no string is drawn. -/
def trials : (attempts : ℕ) → σ → List Trial
  | 0, _ => []
  | attempts + 1, s =>
    match below next width tries s with
    | none => []
    | some (index, s) => ⟨bits width index, (next s).1⟩ :: trials attempts (next s).2

variable {next tries width} in
lemma below_lt {s s' : σ} {index : ℕ} (h : below next width tries s = some (index, s')) :
    index < 2 ^ width := by
  induction tries generalizing s with
  | zero => simp [below] at h
  | succ tries ih =>
    simp only [below] at h
    split at h
    · obtain ⟨rfl, -⟩ := Prod.ext_iff.mp (Option.some.inj h)
      rw [Nat.shiftLeft_eq, Nat.div_lt_iff_lt_mul (by decide), Nat.mul_comm]
      exact Nat.mul_lt_mul_of_pos_left (next s).1.toNat_lt (Nat.two_pow_pos width)
    · exact ih h

variable {next tries width} in
/-- The strings that are drawn have as many bits as they should. -/
lemma exists_index {n : ℕ} {s : σ} {t : Trial} (ht : t ∈ trials next tries width n s) :
    ∃ index < 2 ^ width, t.key = bits width index := by
  induction n generalizing s with
  | zero => simp [trials] at ht
  | succ n ih =>
    rw [trials] at ht
    split at ht
    · simp at ht
    · next index s' hbelow =>
      rcases List.mem_cons.mp ht with rfl | ht
      · exact ⟨index, below_lt hbelow, rfl⟩
      · exact ih ht

/-- **The first trial that is accepted** is the one that is read. -/
lemma attempt_fst (probabilities : Keyed String Float) (n : ℕ) (s : σ) :
    (attempt next tries probabilities width n s).1 =
      ((trials next tries width n s).find? (·.accepted probabilities)).map Trial.key := by
  induction n generalizing s with
  | zero => rfl
  | succ n ih =>
    rw [attempt, trials]
    cases below next width tries s with
    | none => rfl
    | some drawn =>
      obtain ⟨index, s⟩ := drawn
      simp only [List.find?_cons, Trial.accepted]
      split
      · next h => rw [decide_eq_true h]; rfl
      · next h => rw [decide_eq_false h, ih]; rfl

/-- The reading is the first accepted string, or the first key. -/
lemma draw_fst (x : String × Float) (rest : Keyed String Float) (s : σ) :
    (draw next tries (x :: rest) s).1 = some (if x.1.utf8ByteSize < 64 then
      (((trials next tries x.1.utf8ByteSize attempts s).find?
        (·.accepted (x :: rest))).map Trial.key).getD x.1 else x.1) := by
  rw [draw]
  split
  · rw [← attempt_fst]
  · rfl

end Sources

/-! ### Readings that are no keys -/

/-- **What is read.** There is a reading, and it is a key unless the first accepted trial strays. -/
theorem draw_absent_iff {σ : Type} (next : Source σ) (tries : ℕ) (x : String × Float)
    (rest : Keyed String Float) (s : σ) :
    ∃ key, (draw next tries (x :: rest) s).1 = some key ∧
      (key ∉ Keyed.keys (x :: rest) ↔ x.1.utf8ByteSize < 64 ∧ ∃ t, t.key = key ∧
        (trials next tries x.1.utf8ByteSize attempts s).find? (·.accepted (x :: rest)) = some t ∧
          t.Stray (x :: rest)) := by
  have hfirst : x.1 ∈ Keyed.keys (x :: rest) := List.mem_cons_self
  refine ⟨_, draw_fst next tries x rest s, ?_⟩
  split
  · next hwidth =>
    cases hfind :
        (trials next tries x.1.utf8ByteSize attempts s).find? (·.accepted (x :: rest)) with
    | none => simpa using hfirst
    | some t =>
      constructor
      · intro habsent
        exact ⟨hwidth, t, rfl, rfl, habsent,
          (Trial.accepted_iff_of_absent habsent).mp (List.find?_some hfind)⟩
      · rintro ⟨-, u, -, hu, habsent, -⟩
        obtain rfl := Option.some.inj hu
        exact habsent
  · next hwidth => exact iff_of_false (not_not_intro hfirst) fun h => hwidth h.1

/-- A source that hands out these words, and zeros after them. -/
def scripted : Source (List UInt64)
  | [] => (0, [])
  | word :: words => (word, words)

/-- Two zeros: the first draws the string 0, the second has it accepted, and it is no key. -/
theorem zeros_stray : (draw scripted 1 [("1", 1.0)] [0, 0]).1 = some "0" ∧
    "0" ∉ Keyed.keys [("1", (1.0 : Float))] :=
  ⟨rfl, by decide⟩

/-- A word that draws the bit string, and a zero. -/
lemma trials_scripted {width index : ℕ} (hwidth : width < 64) (hindex : index < 2 ^ width)
    (n : ℕ) : ∃ ts, trials scripted 1 width (n + 1) [(index * 2 ^ (64 - width)).toUInt64, 0] =
      ⟨bits width index, 0⟩ :: ts := by
  have hpow : 2 ^ (64 - width) * 2 ^ width = 18446744073709551616 := by
    rw [← Nat.pow_add, Nat.sub_add_cancel hwidth.le]
  have hword : (index * 2 ^ (64 - width)).toUInt64.toNat = index * 2 ^ (64 - width) := by
    refine UInt64.toNat_ofNat_of_lt' ?_
    calc index * 2 ^ (64 - width) < 2 ^ width * 2 ^ (64 - width) :=
          Nat.mul_lt_mul_of_pos_right hindex (Nat.two_pow_pos _)
      _ = UInt64.size := by rw [Nat.mul_comm, hpow]
  have hbelow : below scripted width 1 [(index * 2 ^ (64 - width)).toUInt64, 0] =
      some (index, [0]) := by
    simp only [below, scripted, hword, Nat.shiftLeft_eq, Nat.mul_assoc, hpow, Nat.mul_mod_left]
    rw [if_pos (by decide), Nat.mul_div_cancel index (by decide)]
  rw [trials, hbelow]
  exact ⟨_, rfl⟩

/-- **Where only keys are read.** No source has anything else read if and only if every string that
can be drawn is a key. -/
theorem forall_draw_iff (x : String × Float) (rest : Keyed String Float) :
    (∀ (σ : Type) (next : Source σ) (tries : ℕ) (s : σ), ∃ key ∈ Keyed.keys (x :: rest),
        (draw next tries (x :: rest) s).1 = some key) ↔
      (x.1.utf8ByteSize < 64 → ∀ index < 2 ^ x.1.utf8ByteSize,
        bits x.1.utf8ByteSize index ∈ Keyed.keys (x :: rest)) := by
  constructor
  · intro h hwidth index hindex
    by_contra habsent
    obtain ⟨ts, hts⟩ := trials_scripted hwidth hindex 1023
    have hzero : Trial.accepted (x :: rest) ⟨bits x.1.utf8ByteSize index, 0⟩ = true :=
      (Trial.accepted_iff_of_absent habsent).mpr (show 0 < 2048 by decide)
    obtain ⟨key, hkey, hdraw⟩ := h _ scripted 1 _
    rw [draw_fst, if_pos hwidth, attempts, hts, List.find?_cons_of_pos hzero] at hdraw
    obtain rfl := Option.some.inj hdraw
    exact habsent hkey
  · intro h σ next tries s
    refine ⟨_, ?_, draw_fst next tries x rest s⟩
    split
    · next hwidth =>
      cases hfind :
          (trials next tries x.1.utf8ByteSize attempts s).find? (·.accepted (x :: rest)) with
      | none => exact List.mem_cons_self
      | some t =>
        obtain ⟨index, hindex, hkey⟩ := exists_index (List.mem_of_find?_eq_some hfind)
        have hmem := h hwidth index hindex
        rwa [← hkey] at hmem
    · exact List.mem_cons_self

end QCircuit.Reading
