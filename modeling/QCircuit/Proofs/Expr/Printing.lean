import Mathlib.Tactic
import QCircuit.Proofs.Expr.Grammar
import QCircuit.Proofs.Number.Digits

/-!
Printed expressions are read back.

Every printed expression is a factor: an operation stands in brackets and a constant has no sign.
What follows it is a bracket or a blank, so the longest token at its end stops there.
-/

namespace QCircuit.Expr

/-- The expressions that print as themselves: the constants are finite and have no sign, and the
indices fit a word of 64 bits. -/
def Printable : Expr → Prop
  | .const x => x.isFinite ∧ x.toBits.toNat < 9223372036854775808
  | .arg i => i < 18446744073709551616
  | .pi => True
  | .neg e => e.Printable
  | .add a b | .sub a b | .mul a b | .div a b => a.Printable ∧ b.Printable

instance decidablePrintable : (e : Expr) → Decidable e.Printable
  | .const x => inferInstanceAs (Decidable (x.isFinite ∧ x.toBits.toNat < 9223372036854775808))
  | .arg i => inferInstanceAs (Decidable (i < 18446744073709551616))
  | .pi => inferInstanceAs (Decidable True)
  | .neg e => decidablePrintable e
  | .add a b | .sub a b | .mul a b | .div a b =>
    @instDecidableAnd _ _ (decidablePrintable a) (decidablePrintable b)

/-- The tokens of a printed expression. -/
def tokens : Expr → List Token
  | .const x => [.number x]
  | .arg i => [.name (String.ofList ('p' :: Decimal.digitsOf i))]
  | .pi => [.name "pi"]
  | .neg e => .minus :: .lparen :: e.tokens ++ [.rparen]
  | .add a b => .lparen :: (a.tokens ++ .plus :: b.tokens) ++ [.rparen]
  | .sub a b => .lparen :: (a.tokens ++ .minus :: b.tokens) ++ [.rparen]
  | .mul a b => .lparen :: (a.tokens ++ .star :: b.tokens) ++ [.rparen]
  | .div a b => .lparen :: (a.tokens ++ .slash :: b.tokens) ++ [.rparen]

/-! ### Tokens to tree -/

lemma derives_sum_group {a b : Expr} (op : SumOp) (ha : Derives .factor a.tokens a)
    (hb : Derives .factor b.tokens b) :
    Derives .factor (.lparen :: (a.tokens ++ op.token :: b.tokens) ++ [.rparen]) (op.apply a b) :=
  .group (.sum op (.term (.factor ha)) (.factor hb))

lemma derives_product_group {a b : Expr} (op : ProductOp) (ha : Derives .factor a.tokens a)
    (hb : Derives .factor b.tokens b) :
    Derives .factor (.lparen :: (a.tokens ++ op.token :: b.tokens) ++ [.rparen]) (op.apply a b) :=
  .group (.term (.product op (.factor ha) hb))

lemma derives_tokens {e : Expr} (he : e.Printable) : Derives .factor e.tokens e := by
  induction e with
  | const x => exact .number x
  | arg i =>
    have h := Names.arg (Decimal.digitsOf_ne_nil i) (fun d => Decimal.isDigit_of_mem_digitsOf)
      (by rwa [Decimal.ofDigits_digitsOf])
    rw [Decimal.ofDigits_digitsOf] at h
    exact .name h
  | pi => exact .name (.pi (by simp))
  | neg e ih => exact .neg (.group (.term (.factor (ih he))))
  | add a b iha ihb => exact derives_sum_group .add (iha he.1) (ihb he.2)
  | sub a b iha ihb => exact derives_sum_group .sub (iha he.1) (ihb he.2)
  | mul a b iha ihb => exact derives_product_group .mul (iha he.1) (ihb he.2)
  | div a b iha ihb => exact derives_product_group .div (iha he.1) (ihb he.2)

/-! ### Text to tokens -/

/-- The text has these tokens, wherever it starts. -/
def Lexed (cs : List Char) (ts : List Token) : Prop :=
  ∀ pos, ∃ out, tokensFrom pos cs = .ok out ∧ out.map Prod.fst = ts

lemma lexed_nil : Lexed [] [] := fun pos => ⟨[], by rw [tokensFrom], rfl⟩

lemma Lexed.gap {cs : List Char} {ts : List Token} (h : Lexed cs ts) : Lexed (' ' :: cs) ts := by
  intro pos
  obtain ⟨out, hout, hts⟩ := h (pos + 1)
  exact ⟨out, by rw [tokensFrom, if_pos (by decide), hout], hts⟩

/-- The token at the start of a text that goes on with `rest`. -/
lemma Lexed.token {word rest : List Char} {t : Token} {ts : List Token} (hword : word ≠ [])
    (hgap : ∀ c ∈ word.head?, isGap c = false)
    (htoken : tokenAt (word ++ rest) = some (t, word.length)) (h : Lexed rest ts) :
    Lexed (word ++ rest) (t :: ts) := by
  obtain ⟨c, word, rfl⟩ := List.exists_cons_of_ne_nil hword
  intro pos
  obtain ⟨out, hout, hts⟩ := h (pos + 1 + word.length)
  refine ⟨(t, pos) :: out, ?_, by simp [hts]⟩
  rw [List.cons_append] at htoken ⊢
  have hgap : ¬ isGap c := by simpa using hgap c rfl
  rw [tokensFrom, if_neg hgap, htoken]
  simp [hout, Except.map]

/-- What follows a printed expression. -/
def Bounded (rest : List Char) : Prop := ∀ c ∈ rest.head?, c = ')' ∨ c = ' '

lemma Bounded.cases {rest : List Char} (h : Bounded rest) :
    rest = [] ∨ (∃ cs, rest = ')' :: cs) ∨ ∃ cs, rest = ' ' :: cs := by
  cases rest with
  | nil => exact .inl rfl
  | cons c cs =>
    rcases h c rfl with rfl | rfl
    · exact .inr (.inl ⟨cs, rfl⟩)
    · exact .inr (.inr ⟨cs, rfl⟩)

lemma takeWhile_append_bounded {p : Char → Bool} {word rest : List Char} (hword : ∀ c ∈ word, p c)
    (hp : p ')' = false ∧ p ' ' = false) (hrest : Bounded rest) :
    (word ++ rest).takeWhile p = word := by
  rw [List.takeWhile_append_of_pos hword]
  rcases hrest.cases with rfl | ⟨cs, rfl⟩ | ⟨cs, rfl⟩ <;> simp [hp]

lemma tokenAt_name {word rest : List Char} (hword : ∀ c ∈ word, inName c) (hrest : Bounded rest) :
    tokenAt ('p' :: word ++ rest) =
      some (.name (String.ofList ('p' :: word)), ('p' :: word).length) := by
  rw [List.cons_append, tokenAt, if_pos (by decide),
    takeWhile_append_bounded hword (by decide) hrest]
  all_goals simp

lemma startsName_of_isDigit {c : Char} (hc : c.isDigit) : startsName c = false := by
  have hdigit : '0'.toNat ≤ c.toNat ∧ c.toNat ≤ '9'.toNat := by
    simpa [Char.isDigit, UInt32.le_iff_toNat_le] using hc
  simp only [startsName, Char.isAlpha, Char.isUpper, Char.isLower, Bool.or_eq_false_iff,
    Bool.and_eq_false_iff, decide_eq_false_iff_not, UInt32.le_iff_toNat_le, ge_iff_le,
    beq_eq_false_iff_ne, ne_eq, ← Char.toNat_inj, Char.toNat_val, Char.reduceToNat] at hdigit ⊢
  omega

lemma isGap_of_isDigit {c : Char} (hc : c.isDigit) : isGap c = false := by
  simp only [isGap, Bool.or_eq_false_iff, beq_eq_false_iff_ne]
  refine ⟨⟨⟨?_, ?_⟩, ?_⟩, ?_⟩ <;> rintro rfl <;> simp at hc

lemma tokenAt_of_isDigit {c : Char} (hc : c.isDigit) (cs : List Char) :
    tokenAt (c :: cs) = (numberAt (c :: cs)).map fun (x, n) => (.number x, n) := by
  have hname := startsName_of_isDigit hc
  unfold tokenAt
  split <;> simp_all

lemma exponentAt_bounded {rest : List Char} (h : Bounded rest) : exponentAt rest = (0, 0) := by
  rcases h.cases with rfl | ⟨cs, rfl⟩ | ⟨cs, rfl⟩ <;> simp [exponentAt]

/-- A number that is written out is read with the same value. -/
lemma numberAt_positional (d : Decimal) {rest : List Char} (hrest : Bounded rest) :
    ∃ d' : Decimal, d'.value = d.value ∧
      numberAt (d.positional ++ rest) = some (d'.toFloat false, d.positional.length) := by
  obtain ⟨whole, places, h⟩ := d.exists_parts
  refine ⟨⟨Decimal.ofDigits (whole ++ places), 0 - places.length⟩, h.value_eq, ?_⟩
  have hwhole : ∀ c ∈ whole, c.isDigit := fun c hc => h.digits c (by simp [hc])
  have hplaces : ∀ c ∈ places, c.isDigit := fun c hc => h.digits c (by simp [hc])
  have hne := h.whole_ne_nil
  rw [h.text]
  by_cases hnil : places = []
  · subst hnil
    have htake := takeWhile_append_bounded hwhole (by decide) hrest
    have hexponent := exponentAt_bounded hrest
    simp only [if_true, List.append_nil, numberAt, htake, List.drop_left]
    rcases hrest.cases with rfl | ⟨rest, rfl⟩ | ⟨rest, rfl⟩ <;> simp [hne, hexponent]
  · have htake : (whole ++ '.' :: places ++ rest).takeWhile Char.isDigit = whole := by
      rw [List.append_assoc, List.takeWhile_append_of_pos hwhole]
      simp
    simp only [if_neg hnil, numberAt, htake]
    simp [hne, takeWhile_append_bounded hplaces (by decide) hrest, exponentAt_bounded hrest]

lemma Bounded.of_head {c : Char} (h : c = ')' ∨ c = ' ') (cs : List Char) : Bounded (c :: cs) := by
  simpa [Bounded] using h

lemma decode_of_printable {x : Float} (hx : (Expr.const x).Printable) :
    ∃ m e, Binary64.decode x = .finite false m e := by
  obtain ⟨hfinite, hsign⟩ := hx
  obtain ⟨neg, m, e, h⟩ := Binary64.isFinite_iff.mp hfinite
  cases neg with
  | false => exact ⟨m, e, h⟩
  | true =>
    have hbits := (Binary64.decode_eq_finite_iff.mp h).2
    simp only [Binary64.signBits, if_true] at hbits
    omega

lemma lexed_const {x : Float} (hx : (Expr.const x).Printable) {rest : List Char} {ts : List Token}
    (hrest : Bounded rest) (h : Lexed rest ts) : Lexed (constant x ++ rest) (.number x :: ts) := by
  obtain ⟨m, e, hdecode⟩ := decode_of_printable hx
  obtain ⟨d', hvalue, hnumber⟩ := numberAt_positional (Decimal.shortest .away m e) hrest
  obtain ⟨c, cs, htext, hdigit⟩ := Decimal.positional_eq_cons (Decimal.shortest .away m e)
  have hconstant : constant x = (Decimal.shortest .away m e).positional := by
    simp [constant, Binary64.text, hdecode]
  rw [Decimal.toFloat_of_value_eq_shortest hdecode hvalue] at hnumber
  rw [hconstant]
  refine h.token (by simp [htext]) ?_ ?_
  · simp only [htext, List.head?_cons, Option.mem_def, Option.some.injEq, forall_eq']
    exact isGap_of_isDigit hdigit
  · rw [htext, List.cons_append, tokenAt_of_isDigit hdigit, ← List.cons_append, ← htext, hnumber]
    rfl

lemma lexed_name {word rest : List Char} {ts : List Token} (hword : ∀ c ∈ word, inName c)
    (hrest : Bounded rest) (h : Lexed rest ts) :
    Lexed ('p' :: word ++ rest) (.name (String.ofList ('p' :: word)) :: ts) :=
  h.token (by simp) (by simp [isGap]) (tokenAt_name hword hrest)

/-- A sign, an operator or a bracket. -/
lemma Lexed.mark {c : Char} {t : Token} (hgap : isGap c = false)
    (htoken : ∀ cs, tokenAt (c :: cs) = some (t, 1)) {rest : List Char} {ts : List Token}
    (h : Lexed rest ts) : Lexed (c :: rest) (t :: ts) :=
  @Lexed.token [c] _ _ _ (by simp) (by simpa using hgap) (htoken rest) h

/-- The text of an expression has the tokens of the tree, whatever it goes on with. -/
def PrintsTokens (e : Expr) : Prop :=
  ∀ {rest : List Char} {ts : List Token}, Bounded rest → Lexed rest ts →
    Lexed (e.charsThen rest) (e.tokens ++ ts)

lemma lexed_operation {a b : Expr} (ha : a.PrintsTokens) (hb : b.PrintsTokens) {c : Char}
    {t : Token} (hgap : isGap c = false) (htoken : ∀ cs, tokenAt (c :: cs) = some (t, 1))
    {rest : List Char} {ts : List Token} (h : Lexed rest ts) :
    Lexed ('(' :: a.charsThen (' ' :: c :: ' ' :: b.charsThen (')' :: rest)))
      (.lparen :: (a.tokens ++ t :: b.tokens) ++ [.rparen] ++ ts) := by
  have hclose : Lexed (')' :: rest) (.rparen :: ts) := h.mark rfl fun _ => rfl
  have hright := hb (.of_head (.inl rfl) rest) hclose
  have hop := (hright.gap.mark hgap htoken).gap
  have hleft := ha (.of_head (.inr rfl) _) hop
  simpa using hleft.mark (c := '(') (t := .lparen) rfl fun _ => rfl

/-- **Printing is lexed** into the tokens of the tree. -/
theorem printsTokens {e : Expr} (he : e.Printable) : e.PrintsTokens := by
  induction e with
  | const x => exact fun hrest h => lexed_const he hrest h
  | arg i =>
    intro rest ts hrest h
    refine lexed_name (fun c hc => ?_) hrest h
    simp [inName, Char.isAlphanum, Decimal.isDigit_of_mem_digitsOf hc]
  | pi => exact fun hrest h => @lexed_name ['i'] _ _ (List.all_eq_true.mp rfl) hrest h
  | neg e ih =>
    intro rest ts hrest h
    have hclose : Lexed (')' :: rest) (.rparen :: ts) := h.mark rfl fun _ => rfl
    have hopen := (ih he (.of_head (.inl rfl) rest) hclose).mark (c := '(') (t := .lparen) rfl
      fun _ => rfl
    simpa [charsThen, tokens] using hopen.mark (c := '-') (t := .minus) rfl fun _ => rfl
  | add a b iha ihb => exact fun _ h => lexed_operation (iha he.1) (ihb he.2) rfl (fun _ => rfl) h
  | sub a b iha ihb => exact fun _ h => lexed_operation (iha he.1) (ihb he.2) rfl (fun _ => rfl) h
  | mul a b iha ihb => exact fun _ h => lexed_operation (iha he.1) (ihb he.2) rfl (fun _ => rfl) h
  | div a b iha ihb => exact fun _ h => lexed_operation (iha he.1) (ihb he.2) rfl (fun _ => rfl) h

/-- **Parsing undoes printing.** -/
theorem parse_text {e : Expr} (he : e.Printable) : parse e.text = .ok e := by
  have hlexed : Lexed (e.charsThen []) (e.tokens ++ []) :=
    printsTokens he (by simp [Bounded]) lexed_nil
  obtain ⟨ts, hlex, hts⟩ := hlexed 0
  rw [List.append_nil] at hts
  have hsrc : tokensFrom 0 e.text.toList = .ok ts := by rw [text, String.toList_ofList, hlex]
  rw [parse_of_tokens hsrc, hts]
  exact .term (.factor (derives_tokens he))

theorem parse_text_negated_sum :
    parse "-((0.5 + p3))" = .ok (.neg (.add (.const 0.5) (.arg 3))) := by
  have htext : text (.neg (.add (.const 0.5) (.arg 3))) = "-((0.5 + p3))" := by decide
  rw [← htext]
  exact parse_text (by decide)

end QCircuit.Expr
