import Mathlib.Tactic
import QCircuit.Json.Decode
import QCircuit.Proofs.Number.Digits

/-!
Number literals are read back in the form in which they are written.

A decimal shows a point or an exponent, so it is not taken for an integer; and when its digits fit
a word of 64 bits, none is cut off. The literal of a finite double is of that kind, and the double
nearest to it is the double itself.
-/

namespace QCircuit

namespace Decimal

/-! ### Digits that fit -/

lemma le_ofDigitChars (n : ℕ) (ds : List Char) : n ≤ Nat.ofDigitChars 10 ds n := by
  rw [Nat.ofDigitChars_eq_ofDigitChars_zero]
  have := Nat.one_le_pow ds.length 10 (by decide)
  nlinarith

lemma append_eq {n : ℕ} {ds : List Char} (h : Nat.ofDigitChars 10 ds n < 18446744073709551616) :
    append n ds = (Nat.ofDigitChars 10 ds n, []) := by
  induction ds generalizing n with
  | nil => rfl
  | cons d ds ih =>
    rw [Nat.ofDigitChars_cons] at h ⊢
    simp only [append]
    rw [if_pos ((le_ofDigitChars _ ds).trans_lt h), ih h]

/-- Digits that fit a word are not cut. -/
lemma cut_eq {whole places : List Char} (exp : ℤ)
    (h : ofDigits (whole ++ places) < 18446744073709551616) :
    cut whole places exp = ⟨ofDigits (whole ++ places), exp - places.length⟩ := by
  rw [ofDigits_eq, Nat.ofDigitChars_append] at h ⊢
  have hwhole := append_eq ((le_ofDigitChars _ places).trans_lt h)
  simp [cut, hwhole, append_eq h]

/-- A number with one zero after the point. -/
lemma value_one_place {d : Decimal} (h : 0 ≤ d.exp) :
    value ⟨d.digits * Nat.pow 10 (d.exp + 1).toNat, -1⟩ = d.value := by
  have hpow : (10 : ℚ) ^ (d.exp + 1).toNat = 10 ^ d.exp * 10 := by
    rw [← zpow_natCast, Int.toNat_of_nonneg (by omega), zpow_add_one₀ (by norm_num)]
  rw [value, value]
  push_cast [Nat.pow_eq]
  rw [hpow, zpow_neg_one]
  field_simp

lemma one_place_lt {d : Decimal} (h : 0 ≤ d.exp) (hlead : d.lead < 16) :
    d.digits * Nat.pow 10 (d.exp + 1).toNat < 18446744073709551616 := by
  have hvalue := value_one_place h
  have hlt : d.value < 10 ^ (16 : ℤ) :=
    (lt_ten_zpow_lead d).trans_le (zpow_le_zpow_right₀ (by norm_num) (by omega))
  rw [← hvalue, value, zpow_neg_one, ← div_eq_mul_inv, div_lt_iff₀ (by norm_num)] at hlt
  have hlt : d.digits * Nat.pow 10 (d.exp + 1).toNat < 10 ^ 16 * 10 := by exact_mod_cast hlt
  omega

end Decimal

namespace Json

open Decimal (ofDigits digitsOf)

/-! ### Literals -/

/-- The literals that are written as they are read: the digits fit a word, and a decimal without an
exponent has places after the point. -/
def Numeral.Plain : Numeral → Prop
  | .int _ => True
  | .dec _ d => d.digits < 18446744073709551616 ∧ (Numeral.isPositional d → d.exp < 0)

namespace Numeral

def sign (neg : Bool) : List Char := if neg then ['-'] else []

/-- The sign and the whole digits of a literal, and how it goes on. -/
lemma read?_eq (neg : Bool) {whole rest : List Char} (hne : whole ≠ [])
    (hwhole : ∀ c ∈ whole, c.isDigit) (hzero : whole.length = 1 ∨ whole.head? ≠ some '0')
    (hrest : ∀ c ∈ rest.head?, c.isDigit = false) :
    read? (sign neg ++ (whole ++ rest)) =
      if rest.isEmpty then
        if neg && ofDigits whole == 0 then some (.dec true ⟨0, 0⟩)
        else some (.int (if neg then -ofDigits whole else ofDigits whole))
      else (fraction? rest).bind fun p =>
        (exponent? p.2).map fun e => .dec neg (Decimal.cut whole p.1 e) := by
  have htake : (whole ++ rest).takeWhile Char.isDigit = whole := by
    rw [List.takeWhile_append_of_pos hwhole]
    cases rest <;> simp_all
  have hdrop : (whole ++ rest).dropWhile Char.isDigit = rest := by
    rw [List.dropWhile_append_of_pos hwhole]
    cases rest <;> simp_all
  have hguard : (whole.isEmpty || (whole.length != 1 && whole.head? == some '0')) = false := by
    rcases hzero with h | h <;> simp [hne, h]
  have hminus : ∀ cs, whole ++ rest ≠ '-' :: cs := by
    intro cs h
    obtain ⟨c, whole, rfl⟩ := List.exists_cons_of_ne_nil hne
    obtain rfl : c = '-' := (List.cons.inj h).1
    simpa using hwhole '-' (by simp)
  unfold read?
  cases neg with
  | true =>
    simp only [sign, if_true, List.cons_append, List.nil_append, htake, hdrop, hguard]
    split_ifs <;> simp_all [Option.map_eq_bind]
  | false =>
    simp only [sign, List.nil_append, Bool.false_eq_true, if_false, htake, hdrop, hguard]
    split_ifs <;> simp_all [Option.map_eq_bind]

/-! ### Reading what is written -/

lemma digitsOf_length_or_head (n : ℕ) :
    (digitsOf n).length = 1 ∨ (digitsOf n).head? ≠ some '0' := by
  rcases eq_or_ne n 0 with rfl | hn
  · left
    decide
  · exact .inr (Decimal.head_digitsOf_ne_zero hn)

lemma read?_int (n : ℤ) : read? (Numeral.int n).text = some (.int n) := by
  have h := @read?_eq (decide (n < 0)) _ [] (Decimal.digitsOf_ne_nil n.natAbs)
    (fun c hc => Decimal.isDigit_of_mem_digitsOf hc) (digitsOf_length_or_head _) (by simp)
  rw [List.append_nil, Decimal.ofDigits_digitsOf] at h
  have htext : (Numeral.int n).text = sign (decide (n < 0)) ++ digitsOf n.natAbs := by
    simp [text, sign]
  have hzero : (decide (n < 0) && n.natAbs == 0) = false := by
    simp
    omega
  have hn : (if decide (n < 0) then -(n.natAbs : ℤ) else n.natAbs) = n := by
    simp only [decide_eq_true_eq]
    split_ifs <;> omega
  rw [htext, h, hzero, hn]
  rfl

/-- Digits after the point end where the digits end. -/
lemma fraction?_eq {places rest : List Char} (hne : places ≠ [])
    (hplaces : ∀ c ∈ places, c.isDigit) (hrest : ∀ c ∈ rest.head?, c.isDigit = false) :
    fraction? ('.' :: (places ++ rest)) = some (places, rest) := by
  rw [fraction?, List.takeWhile_append_of_pos hplaces, List.dropWhile_append_of_pos hplaces]
  cases rest <;> simp_all

lemma read?_positional (neg : Bool) {d : Decimal} (hd : d.digits < 18446744073709551616)
    (hexp : d.exp < 0) : read? (sign neg ++ d.positional) = some (.dec neg d) := by
  obtain ⟨whole, places, h⟩ := d.exists_parts
  have hwhole : ∀ c ∈ whole, c.isDigit := fun c hc => h.digits c (by simp [hc])
  have hplaces : ∀ c ∈ places, c.isDigit := fun c hc => h.digits c (by simp [hc])
  have hne : places ≠ [] := by
    intro hnil
    have := h.length
    rw [hnil, List.length_nil] at this
    omega
  have hzero : whole.length = 1 ∨ whole.head? ≠ some '0' := by
    rcases h.no_zero hexp with rfl | hhead
    · exact .inl rfl
    · exact .inr hhead
  have hfraction : fraction? ('.' :: places) = some (places, []) := by
    simpa using @fraction?_eq _ [] hne hplaces (by simp)
  have hvalue : ofDigits (whole ++ places) = d.digits := by
    rw [h.ofDigits_eq, show d.exp.toNat = 0 by omega, pow_zero, mul_one]
  rw [h.text, if_neg hne, read?_eq neg h.whole_ne_nil hwhole hzero (by simp)]
  simp only [List.isEmpty_cons, Bool.false_eq_true, if_false, hfraction, Option.bind_some,
    exponent?, Option.map_some]
  have hexp' : (0 : ℤ) - places.length = d.exp := by
    rw [h.length]
    omega
  rw [Decimal.cut_eq 0 (by rwa [hvalue]), hvalue, hexp']

lemma exponent?_eq (n : ℤ) :
    exponent? ('e' :: (if n < 0 then '-' else '+') :: digitsOf n.natAbs) = some n := by
  have hall : (digitsOf n.natAbs).all Char.isDigit := by
    rw [List.all_eq_true]
    exact fun c hc => Decimal.isDigit_of_mem_digitsOf hc
  by_cases hn : n < 0
  · simp [exponent?, hn, Decimal.digitsOf_ne_nil, hall, abs_of_neg hn]
  · simp [exponent?, hn, Decimal.digitsOf_ne_nil, hall, abs_of_nonneg (not_lt.mp hn)]

lemma read?_scientific (neg : Bool) {d : Decimal} (hd : d.digits < 18446744073709551616) :
    read? (sign neg ++ d.scientific) = some (.dec neg d) := by
  obtain ⟨c, tail, hds⟩ := List.exists_cons_of_ne_nil (Decimal.digitsOf_ne_nil d.digits)
  have hdigits : ∀ b ∈ c :: tail, b.isDigit :=
    fun b hb => Decimal.isDigit_of_mem_digitsOf (hds ▸ hb)
  obtain ⟨exponent, hexponent⟩ : ∃ cs,
      cs = 'e' :: (if d.lead < 0 then '-' else '+') :: digitsOf d.lead.natAbs := ⟨_, rfl⟩
  have htext : d.scientific = [c] ++ ((if tail = [] then [] else '.' :: tail) ++ exponent) := by
    simp [Decimal.scientific, hds, hexponent]
  have hfraction : fraction? ((if tail = [] then [] else '.' :: tail) ++ exponent) =
      some (tail, exponent) := by
    split_ifs with htail
    · simp [htail, hexponent, fraction?]
    · rw [List.cons_append]
      exact fraction?_eq htail (fun b hb => hdigits b (by simp [hb])) (by simp [hexponent])
  have hvalue : ofDigits ([c] ++ tail) = d.digits := by
    rw [List.singleton_append, ← hds, Decimal.ofDigits_digitsOf]
  have hexp : d.lead - tail.length = d.exp := by
    rw [Decimal.lead, hds, List.length_cons]
    omega
  rw [htext, read?_eq neg (by simp) (fun b hb => hdigits b (by simp_all)) (.inl rfl)
    (by split_ifs <;> simp [hexponent])]
  rw [if_neg (by simp [hexponent]), hfraction, Option.bind_some, hexponent, exponent?_eq,
    Option.map_some, Decimal.cut_eq _ (by rwa [hvalue]), hvalue, hexp]

/-- **Literals are read back.** -/
theorem read?_text {n : Numeral} (h : n.Plain) : read? n.text = some n := by
  cases n with
  | int n => exact read?_int n
  | dec neg d =>
    obtain ⟨hd, hexp⟩ := h
    have htext : (Numeral.dec neg d).text = sign neg ++
        if isPositional d then d.positional ++ (if d.exp < 0 then [] else ['.', '0'])
        else d.scientific := rfl
    rw [htext]
    split_ifs with hpos hneg
    · rw [List.append_nil]
      exact read?_positional neg hd hneg
    · exact absurd (hexp hpos) hneg
    · exact read?_scientific neg hd

/-! ### Words -/

lemma isWord_of_isDigit {c : Char} (hc : c.isDigit) : Scan.isWord c := by
  simp [Scan.isWord, Char.isAlphanum, hc]

lemma isWord_of_mem_digits {ds : List Char} (hds : ∀ c ∈ ds, c.isDigit) :
    ∀ c ∈ ds, Scan.isWord c := fun c hc => isWord_of_isDigit (hds c hc)

lemma isWord_of_mem_positional {d : Decimal} : ∀ c ∈ d.positional, Scan.isWord c := by
  obtain ⟨whole, places, h⟩ := d.exists_parts
  have hdigits := isWord_of_mem_digits h.digits
  rw [h.text]
  intro c hc
  rcases List.mem_append.mp hc with hc | hc
  · exact hdigits c (by simp [hc])
  · split_ifs at hc with hnil
    · simp at hc
    · rcases List.mem_cons.mp hc with rfl | hc
      · decide
      · exact hdigits c (by simp [hc])

lemma isWord_of_mem_scientific {d : Decimal} : ∀ c ∈ d.scientific, Scan.isWord c := by
  have hword : ∀ n, ∀ c ∈ digitsOf n, Scan.isWord c :=
    fun n => isWord_of_mem_digits fun c hc => Decimal.isDigit_of_mem_digitsOf hc
  intro c hc
  simp only [Decimal.scientific, List.mem_append, List.mem_cons] at hc
  rcases hc with (hc | hc) | rfl | rfl | hc
  · exact hword _ c (List.mem_of_mem_take hc)
  · split_ifs at hc
    · simp at hc
    · rcases List.mem_cons.mp hc with rfl | hc
      · decide
      · exact hword _ c (List.mem_of_mem_drop hc)
  · decide
  · split_ifs <;> decide
  · exact hword _ c hc

lemma isWord_of_mem_text {n : Numeral} : ∀ c ∈ n.text, Scan.isWord c := by
  intro c hc
  cases n with
  | int n =>
    rcases List.mem_append.mp hc with hc | hc
    · split_ifs at hc <;> simp_all [Scan.isWord]
    · exact isWord_of_isDigit (Decimal.isDigit_of_mem_digitsOf hc)
  | dec neg d =>
    rcases List.mem_append.mp hc with hc | hc
    · split_ifs at hc <;> simp_all [Scan.isWord]
    · split_ifs at hc
      · exact isWord_of_mem_positional c (by simpa using hc)
      · rcases List.mem_append.mp hc with hc | hc
        · exact isWord_of_mem_positional c hc
        · simp only [List.mem_cons, List.not_mem_nil, or_false] at hc
          rcases hc with rfl | rfl <;> decide
      · exact isWord_of_mem_scientific c hc

lemma ofWord?_text {n : Numeral} (h : n.Plain) : Token.ofWord? n.text = some (.num n) := by
  have hread := read?_text h
  -- no literal name is a number
  have hname : ∀ name, read? name = none → n.text ≠ name := by
    rintro name hnone rfl
    simp [hnone] at hread
  rw [Token.ofWord?, if_neg (hname _ (by decide)), if_neg (hname _ (by decide)),
    if_neg (hname _ (by decide)), hread]
  rfl

/-! ### Literals of doubles -/

/-- The literal of a finite double is plain, and stands for the shortest decimal of it. -/
lemma ofFloat?_eq {x : Float} {neg : Bool} {m : ℕ} {e : ℤ}
    (hx : Binary64.decode x = .finite neg m e) :
    ∃ d, ofFloat? x = some (.dec neg d) ∧ d.value = (Decimal.shortest .even m e).value ∧
      (Numeral.dec neg d).Plain := by
  have hc := (Binary64.decode_eq_finite_iff.mp hx).1
  have hdigits := Decimal.digits_shortest_lt .even hc
  refine ⟨_, by rw [ofFloat?, hx], ?_, ?_⟩
  · split_ifs with h
    · exact Decimal.value_one_place h.2
    · rfl
  · split_ifs with h
    · exact ⟨Decimal.one_place_lt h.2 (of_decide_eq_true h.1).2, fun _ => by norm_num⟩
    · exact ⟨hdigits, fun hpos => not_le.mp fun hexp => h ⟨hpos, hexp⟩⟩

/-- The literal of a double is read as the double nearest to what it says. Digits that are rounded
before they are scaled may miss that one. -/
def ReadsNearest (x : Float) : Prop :=
  ∀ neg d, ofFloat? x = some (.dec neg d) → (Numeral.dec neg d).toFloat? = some (d.toFloat neg)

lemma readsNearest_iff {x : Float} {neg : Bool} {d : Decimal} (hx : ofFloat? x = some (.dec neg d)) :
    ReadsNearest x ↔ (Numeral.dec neg d).toFloat? = some (d.toFloat neg) := by
  simp [ReadsNearest, hx]

lemma readsNearest_half : ReadsNearest 0.5 := by
  have hx : ofFloat? 0.5 = some (.dec false ⟨5, -1⟩) := by decide
  rw [readsNearest_iff hx, toFloat?, Decimal.quick?, Decimal.scale]
  decide

/-- The second rounding does miss: one unit in the last place at seventeen digits. -/
lemma exists_not_readsNearest : ∃ x : Float, x.isFinite ∧ ¬ ReadsNearest x := by
  have hx : ofFloat? 372.42256683503507 = some (.dec false ⟨37242256683503507, -14⟩) := by decide
  refine ⟨372.42256683503507, by decide, ?_⟩
  rw [readsNearest_iff hx, toFloat?, Decimal.quick?, Decimal.scale]
  decide

/-- **Doubles are read back** where the nearest double is read: a finite double is nearest to its
own literal. -/
theorem float?_float_iff {x : Float} :
    (Value.float x).float? = some x ↔ x.isFinite ∧ ReadsNearest x := by
  cases hx : Binary64.decode x with
  | nan =>
    have hfinite : ¬ x.isFinite := by simp [Binary64.isFinite_iff, hx]
    simp [Value.float, ofFloat?, hx, Value.float?, hfinite]
  | inf neg =>
    have hfinite : ¬ x.isFinite := by simp [Binary64.isFinite_iff, hx]
    simp [Value.float, ofFloat?, hx, Value.float?, hfinite]
  | finite neg m e =>
    have hfinite : x.isFinite := Binary64.isFinite_iff.mpr ⟨neg, m, e, hx⟩
    obtain ⟨d, hd, hvalue, -⟩ := ofFloat?_eq hx
    have hnearest : d.toFloat neg = x := Decimal.toFloat_of_value_eq_shortest hx hvalue
    simp [Value.float, ReadsNearest, hd, Value.float?, hfinite, hnearest]

lemma plain_of_float {x : Float} {n : Numeral} (h : ofFloat? x = some n) : n.Plain := by
  cases hx : Binary64.decode x with
  | nan => simp [ofFloat?, hx] at h
  | inf neg => simp [ofFloat?, hx] at h
  | finite neg m e =>
    obtain ⟨d, hd, -, hplain⟩ := ofFloat?_eq hx
    obtain rfl := Option.some.inj (hd.symm.trans h)
    exact hplain

end Numeral
end Json
end QCircuit
