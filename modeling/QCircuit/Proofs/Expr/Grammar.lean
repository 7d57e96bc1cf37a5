import Mathlib
import QCircuit.Expr.Parser
import QCircuit.Proofs.Number.Digits

/-!
The grammar of expressions, and the parser that goes by it.

A run of tokens is derived as an expression, a term or a factor, together with the tree it stands
for. What the parser has taken so far can be read back off its state: the open brackets, and at each
of them a sum, a product and signs that wait for their operand. So it accepts nothing outside of the
grammar, and since it goes through whatever is derived, it accepts all of it, with the same tree.
-/

namespace QCircuit.Expr

/-! ### The grammar -/

def SumOp.token : SumOp → Token
  | .add => .plus
  | .sub => .minus

def ProductOp.token : ProductOp → Token
  | .mul => .star
  | .div => .slash

/-- What a name stands for: π in any letter case, or after `p` the digits of an index that fits a
word of 64 bits. -/
inductive Names : String → Expr → Prop where
  | pi {s : String} (h : s ∈ ["pi", "pI", "Pi", "PI"]) : Names s .pi
  | arg {ds : List Char} (hne : ds ≠ []) (hdigits : ∀ d ∈ ds, d.isDigit)
      (hlt : Decimal.ofDigits ds < 18446744073709551616) :
      Names (String.ofList ('p' :: ds)) (.arg (Decimal.ofDigits ds))

inductive Rank where
  | expr
  | term
  | factor

/-- The tokens of an expression, a term or a factor, and the tree they stand for. A repetition grows
at its right end, so operators of one rank associate to the left; a sign is part of its factor. -/
inductive Derives : Rank → List Token → Expr → Prop where
  | number (x : Float) : Derives .factor [.number x] (.const x)
  | name {s : String} {e : Expr} (h : Names s e) : Derives .factor [.name s] e
  | neg {ts : List Token} {e : Expr} (h : Derives .factor ts e) :
      Derives .factor (.minus :: ts) (.neg e)
  | group {ts : List Token} {e : Expr} (h : Derives .expr ts e) :
      Derives .factor (.lparen :: ts ++ [.rparen]) e
  | factor {ts : List Token} {e : Expr} (h : Derives .factor ts e) : Derives .term ts e
  | product (op : ProductOp) {ts us : List Token} {a b : Expr} (ha : Derives .term ts a)
      (hb : Derives .factor us b) : Derives .term (ts ++ op.token :: us) (op.apply a b)
  | term {ts : List Token} {e : Expr} (h : Derives .term ts e) : Derives .expr ts e
  | sum (op : SumOp) {ts us : List Token} {a b : Expr} (ha : Derives .expr ts a)
      (hb : Derives .term us b) : Derives .expr (ts ++ op.token :: us) (op.apply a b)

/-! ### Names -/

lemma toLower_eq_iff {c d u : Char} (hd : d.isLower) (hu : u.toNat + 32 = d.toNat) :
    c.toLower = d ↔ c = d ∨ c = u := by
  have hlow : 'a'.toNat ≤ d.toNat ∧ d.toNat ≤ 'z'.toNat := by
    simpa [Char.isLower, UInt32.le_iff_toNat_le] using hd
  simp only [← Char.toNat_inj, Char.toLower]
  split
  · next h =>
    have hup : 'A'.toNat ≤ c.toNat ∧ c.toNat ≤ 'Z'.toNat := by
      simpa [UInt32.le_iff_toNat_le] using h
    have hval : (c.val + ('a'.val - 'A'.val)).toNat = c.toNat + 32 := by
      rw [UInt32.toNat_add, Char.toNat_val]
      simp only [Char.reduceToNat] at hup ⊢
      have h32 : ('a'.val - 'A'.val).toNat = 32 := by decide
      omega
    rw [Char.toNat_mk, hval]
    simp only [Char.reduceToNat] at hlow hup
    omega
  · next h =>
    have hup : ¬ ('A'.toNat ≤ c.toNat ∧ c.toNat ≤ 'Z'.toNat) := by
      simpa [UInt32.le_iff_toNat_le] using h
    simp only [Char.reduceToNat] at hlow hup
    omega

lemma toLower_eq_pi {s : String} : s.toLower = "pi" ↔ s ∈ ["pi", "pI", "Pi", "PI"] := by
  have hp : ∀ c : Char, c.toLower = 'p' ↔ c = 'p' ∨ c = 'P' :=
    fun c => toLower_eq_iff (by decide) (by decide)
  have hi : ∀ c : Char, c.toLower = 'i' ↔ c = 'i' ∨ c = 'I' :=
    fun c => toLower_eq_iff (by decide) (by decide)
  simp only [List.mem_cons, List.not_mem_nil, or_false, ← String.toList_inj, String.toLower,
    String.toList_map]
  rcases s.toList with _ | ⟨c, _ | ⟨d, _ | ⟨e, cs⟩⟩⟩
  · simp
  · simp
  · simp only [List.map_cons, List.map_nil, String.reduceToList, List.cons.injEq, and_true, hp, hi]
    grind
  · simp

namespace Parser

/-- **Names are read as the grammar says.** -/
theorem nameExpr?_eq_some {s : String} {e : Expr} : nameExpr? s = some e ↔ Names s e := by
  unfold nameExpr?
  constructor
  · intro h
    split at h
    · next hpi =>
      obtain rfl := Option.some.inj h
      exact .pi (toLower_eq_pi.mp hpi)
    · split at h
      · next ds hs =>
        obtain ⟨i, hi, rfl⟩ := Option.map_eq_some_iff.mp h
        obtain ⟨hne, hdigits, hlt, rfl⟩ := Text.digits?_eq_some.mp hi
        rw [← String.ofList_toList (s := s), hs]
        exact .arg hne hdigits hlt
      · simp at h
  · intro h
    cases h with
    | pi h => simp [toLower_eq_pi.mpr h]
    | @arg ds hne hdigits hlt =>
      have hnot : ¬ (String.ofList ('p' :: ds)).toLower = "pi" := by
        rw [toLower_eq_pi]
        intro h
        have hi : 'i' ∈ ds ∨ 'I' ∈ ds := by
          simp only [List.mem_cons, List.not_mem_nil, or_false, ← String.toList_inj,
            String.toList_ofList, String.reduceToList, List.cons.injEq] at h
          grind
        rcases hi with hi | hi
        · simpa using hdigits _ hi
        · simpa using hdigits _ hi
      rw [if_neg hnot, String.toList_ofList]
      exact Option.map_eq_some_iff.mpr ⟨_, Text.digits?_eq_some.mpr ⟨hne, hdigits, hlt, rfl⟩, rfl⟩

/-! ### Steps -/

def steps (s : St) (ts : List Token) : Except Reason St := ts.foldlM step s

@[simp] lemma steps_nil (s : St) : steps s [] = .ok s := rfl

@[simp] lemma steps_cons (s : St) (t : Token) (ts : List Token) :
    steps s (t :: ts) = (step s t).bind fun s' => steps s' ts := rfl

lemma steps_append (s : St) (ts us : List Token) :
    steps s (ts ++ us) = (steps s ts).bind fun s' => steps s' us := by
  simp only [steps, List.foldlM_append]
  rfl

/-- The places of the tokens matter to faults only. -/
lemma run_eq_ok_iff {stop : Nat} {s : St} {ts : List (Token × Nat)} {e : Expr} :
    run stop s ts = .ok e ↔
      ∃ s', steps s (ts.map Prod.fst) = .ok s' ∧ s'.done = .ok e := by
  induction ts generalizing s with
  | nil =>
    rw [run]
    cases hd : s.done <;> simp [hd, Except.mapError]
  | cons t ts ih =>
    obtain ⟨t, pos⟩ := t
    rw [run, List.map_cons, steps_cons]
    cases hs : step s t with
    | error r => simp [Except.bind]
    | ok s' => simpa [Except.bind] using ih

/-! ### What is derived is taken -/

/-- Where a run of tokens leads the parser from a place where it may start. -/
def Leads : Rank → List Token → Expr → Prop
  | .factor, ts, e => ∀ l outer, steps (.before l outer) ts = .ok (operand l outer e)
  | .term, ts, e =>
    ∀ sum outer, steps (.before ⟨sum, none, 0⟩ outer) ts = .ok (.after e sum outer)
  | .expr, ts, e =>
    ∀ outer, ∃ t sum, steps (.before ⟨none, none, 0⟩ outer) ts = .ok (.after t sum outer) ∧
      sumWith sum t = e

lemma negate_neg (n : Nat) (e : Expr) : negate n (.neg e) = .neg (negate n e) := by
  induction n with
  | zero => rfl
  | succ n ih => rw [negate, negate, ih]

lemma operand_neg (l : Level) (outer : List Level) (e : Expr) :
    operand { l with signs := l.signs + 1 } outer e = operand l outer (.neg e) := by
  simp only [operand, negate, negate_neg]

lemma step_sumOp (op : SumOp) (t : Expr) (sum : Option (Expr × SumOp)) (outer : List Level) :
    step (.after t sum outer) op.token =
      .ok (.before ⟨some (sumWith sum t, op), none, 0⟩ outer) := by
  cases op <;> rfl

lemma step_productOp (op : ProductOp) (t : Expr) (sum : Option (Expr × SumOp))
    (outer : List Level) :
    step (.after t sum outer) op.token = .ok (.before ⟨sum, some (t, op), 0⟩ outer) := by
  cases op <;> rfl

/-- **Completeness**: the parser goes through whatever is derived, and has its tree then. -/
theorem leads_of_derives {r : Rank} {ts : List Token} {e : Expr} (h : Derives r ts e) :
    Leads r ts e := by
  induction h with
  | number x =>
    intro l outer
    rfl
  | name h =>
    intro l outer
    simp [step, nameExpr?_eq_some.mpr h, Except.bind]
  | neg _ ih =>
    intro l outer
    rw [steps_cons, step, Except.bind, ih, operand_neg]
  | group _ ih =>
    intro l outer
    obtain ⟨t, sum, hsteps, rfl⟩ := ih (l :: outer)
    rw [List.cons_append, steps_cons, step, Except.bind, steps_append, hsteps]
    rfl
  | factor _ ih =>
    intro sum outer
    exact ih ⟨sum, none, 0⟩ outer
  | product op _ _ iha ihb =>
    intro sum outer
    rw [steps_append, iha, Except.bind, steps_cons, step_productOp, Except.bind, ihb]
    rfl
  | @term ts e _ ih =>
    intro outer
    exact ⟨e, none, ih none outer, rfl⟩
  | @sum op ts us a b _ _ iha ihb =>
    intro outer
    obtain ⟨t, sum, hsteps, rfl⟩ := iha outer
    refine ⟨b, some (sumWith sum t, op), ?_, rfl⟩
    rw [steps_append, hsteps, Except.bind, steps_cons, step_sumOp, Except.bind, ihb]

/-! ### What is taken is derived -/

/-- The tokens of a sum that waits for its right operand. -/
inductive SumTokens : Option (Expr × SumOp) → List Token → Prop where
  | none : SumTokens none []
  | some (op : SumOp) {ts : List Token} {a : Expr} (h : Derives .expr ts a) :
      SumTokens (some (a, op)) (ts ++ [op.token])

/-- The tokens of a product that waits for its right operand. -/
inductive ProductTokens : Option (Expr × ProductOp) → List Token → Prop where
  | none : ProductTokens none []
  | some (op : ProductOp) {ts : List Token} {a : Expr} (h : Derives .term ts a) :
      ProductTokens (some (a, op)) (ts ++ [op.token])

/-- The tokens of a level at which a factor is due. -/
inductive LevelTokens : Level → List Token → Prop where
  | mk {l : Level} {ts us : List Token} (hsum : SumTokens l.sum ts)
      (hproduct : ProductTokens l.product us) :
      LevelTokens l (ts ++ us ++ List.replicate l.signs .minus)

/-- The tokens up to the last open bracket. -/
inductive OuterTokens : List Level → List Token → Prop where
  | nil : OuterTokens [] []
  | cons {l : Level} {ls : List Level} {ts us : List Token} (houter : OuterTokens ls ts)
      (hlevel : LevelTokens l us) : OuterTokens (l :: ls) (ts ++ us ++ [.lparen])

/-- The tokens taken so far, read back off the state. -/
inductive Taken : St → List Token → Prop where
  | before {l : Level} {outer : List Level} {ts us : List Token} (houter : OuterTokens outer ts)
      (hlevel : LevelTokens l us) : Taken (.before l outer) (ts ++ us)
  | after {t : Expr} {sum : Option (Expr × SumOp)} {outer : List Level}
      {ts us vs : List Token} (houter : OuterTokens outer ts) (hsum : SumTokens sum us)
      (hterm : Derives .term vs t) : Taken (.after t sum outer) (ts ++ us ++ vs)

lemma SumTokens.derives {sum : Option (Expr × SumOp)} {ts us : List Token} {t : Expr}
    (hsum : SumTokens sum ts) (ht : Derives .term us t) :
    Derives .expr (ts ++ us) (sumWith sum t) := by
  cases hsum with
  | none => exact .term ht
  | some op h =>
    rw [List.append_assoc]
    exact .sum op h ht

lemma ProductTokens.derives {product : Option (Expr × ProductOp)} {ts us : List Token} {e : Expr}
    (hproduct : ProductTokens product ts) (he : Derives .factor us e) :
    Derives .term (ts ++ us) (productWith product e) := by
  cases hproduct with
  | none => exact .factor he
  | some op h =>
    rw [List.append_assoc]
    exact .product op h he

lemma derives_negate {ts : List Token} {e : Expr} (h : Derives .factor ts e) (n : Nat) :
    Derives .factor (List.replicate n .minus ++ ts) (negate n e) := by
  induction n with
  | zero => exact h
  | succ n ih => exact .neg ih

lemma levelTokens_nil : LevelTokens ⟨none, none, 0⟩ [] :=
  LevelTokens.mk (l := ⟨none, none, 0⟩) .none .none

/-- A factor ends the term of its level. -/
lemma taken_operand {l : Level} {outer : List Level} {ts us vs : List Token} {e : Expr}
    (houter : OuterTokens outer ts) (hlevel : LevelTokens l us) (he : Derives .factor vs e) :
    Taken (operand l outer e) (ts ++ us ++ vs) := by
  obtain ⟨hsum, hproduct⟩ := hlevel
  have hterm := hproduct.derives (derives_negate he l.signs)
  simpa [operand] using Taken.after houter hsum hterm

lemma LevelTokens.sign {l : Level} {ts : List Token} (h : LevelTokens l ts) :
    LevelTokens { l with signs := l.signs + 1 } (ts ++ [.minus]) := by
  obtain ⟨hsum, hproduct⟩ := h
  rw [List.append_assoc, ← List.replicate_succ']
  exact LevelTokens.mk (l := { l with signs := l.signs + 1 }) hsum hproduct

/-- An operator after a term opens a level that waits for the right operand. -/
lemma taken_operator {l : Level} {outer : List Level} {ts us : List Token} {t : Token}
    (houter : OuterTokens outer ts) (hlevel : LevelTokens l (us ++ [t])) :
    Taken (.before l outer) (ts ++ us ++ [t]) := by
  simpa using Taken.before houter hlevel

lemma Taken.step {s s' : St} {ts : List Token} {t : Token} (h : Taken s ts)
    (hstep : step s t = .ok s') : Taken s' (ts ++ [t]) := by
  cases h with
  | @before l outer ts us houter hlevel =>
    cases t with
    | minus =>
      obtain rfl := Except.ok.inj hstep
      exact taken_operator houter hlevel.sign
    | lparen =>
      obtain rfl := Except.ok.inj hstep
      simpa using Taken.before (.cons houter hlevel) levelTokens_nil
    | number x =>
      obtain rfl := Except.ok.inj hstep
      exact taken_operand houter hlevel (.number x)
    | name s =>
      rw [Parser.step] at hstep
      split at hstep
      · next e he =>
        obtain rfl := Except.ok.inj hstep
        exact taken_operand houter hlevel (.name (nameExpr?_eq_some.mp he))
      · simp at hstep
    | _ => simp [Parser.step] at hstep
  | @after e sum outer ts us vs houter hsum hterm =>
    have hexpr := hsum.derives hterm
    -- the four operators
    have hadd : ∀ op : SumOp, LevelTokens ⟨some (sumWith sum e, op), none, 0⟩
        (us ++ vs ++ [op.token]) := by
      intro op
      simpa using LevelTokens.mk (l := ⟨some (sumWith sum e, op), none, 0⟩) (.some op hexpr) .none
    have hmul : ∀ op : ProductOp, LevelTokens ⟨sum, some (e, op), 0⟩
        (us ++ vs ++ [op.token]) := by
      intro op
      simpa using LevelTokens.mk (l := ⟨sum, some (e, op), 0⟩) hsum (.some op hterm)
    cases t with
    | plus =>
      obtain rfl := Except.ok.inj hstep
      simpa [SumOp.token] using taken_operator houter (hadd .add)
    | minus =>
      obtain rfl := Except.ok.inj hstep
      simpa [SumOp.token] using taken_operator houter (hadd .sub)
    | star =>
      obtain rfl := Except.ok.inj hstep
      simpa [ProductOp.token] using taken_operator houter (hmul .mul)
    | slash =>
      obtain rfl := Except.ok.inj hstep
      simpa [ProductOp.token] using taken_operator houter (hmul .div)
    | rparen =>
      cases houter with
      | nil => simp [Parser.step] at hstep
      | cons houter hlevel =>
        obtain rfl := Except.ok.inj hstep
        simpa using taken_operand houter hlevel (.group hexpr)
    | _ => cases houter <;> simp [Parser.step] at hstep

lemma Taken.steps {s s' : St} {ts us : List Token} (h : Taken s ts)
    (hsteps : steps s us = .ok s') : Taken s' (ts ++ us) := by
  induction us generalizing s ts with
  | nil =>
    obtain rfl := Except.ok.inj hsteps
    simpa using h
  | cons u us ih =>
    rw [steps_cons] at hsteps
    cases hu : Parser.step s u with
    | error r => simp [hu, Except.bind] at hsteps
    | ok s₁ =>
      rw [hu] at hsteps
      simpa using ih (h.step hu) hsteps

/-- **Soundness**: what the parser has taken when it is done is an expression. -/
theorem Taken.done {s : St} {ts : List Token} {e : Expr} (h : Taken s ts)
    (hdone : s.done = .ok e) : Derives .expr ts e := by
  cases h with
  | before _ _ => simp [St.done] at hdone
  | after houter hsum hterm =>
    cases houter with
    | nil =>
      obtain rfl := Except.ok.inj hdone
      exact hsum.derives hterm
    | cons _ _ => simp [St.done] at hdone

lemma done_iff_derives {ts : List Token} {e : Expr} :
    (∃ s, steps (.before ⟨none, none, 0⟩ []) ts = .ok s ∧ s.done = .ok e) ↔
      Derives .expr ts e := by
  constructor
  · rintro ⟨s, hsteps, hdone⟩
    exact ((Taken.before .nil levelTokens_nil).steps hsteps).done hdone
  · intro h
    obtain ⟨t, sum, hsteps, rfl⟩ := leads_of_derives h []
    exact ⟨_, hsteps, rfl⟩

end Parser

/-- The parser is a function, so no run of tokens has two trees. -/
lemma Derives.unique {ts : List Token} {a b : Expr} (ha : Derives .expr ts a)
    (hb : Derives .expr ts b) : a = b := by
  obtain ⟨s, hs, hsa⟩ := Parser.done_iff_derives.mpr ha
  obtain ⟨s', hs', hsb⟩ := Parser.done_iff_derives.mpr hb
  obtain rfl := Except.ok.inj (hs.symm.trans hs')
  exact Except.ok.inj (hsa.symm.trans hsb)

lemma parse_of_tokens {src : String} {ts : List (Token × Nat)}
    (hlex : tokensFrom 0 src.toList = .ok ts) {e : Expr} :
    parse src = .ok e ↔ Derives .expr (ts.map Prod.fst) e := by
  rw [← Parser.done_iff_derives, ← Parser.run_eq_ok_iff, parse, hlex]
  rfl

/-- **The parser accepts the grammar and nothing else.** A text that has tokens is accepted with a
tree if and only if its tokens are derived as an expression with that tree; and no run of tokens is
derived with two trees. -/
theorem parse_eq_ok_iff {src : String} {ts : List (Token × Nat)}
    (hlex : tokensFrom 0 src.toList = .ok ts) :
    (∀ e, parse src = .ok e ↔ Derives .expr (ts.map Prod.fst) e) ∧
      ∀ (us : List Token) (a b : Expr), Derives .expr us a → Derives .expr us b → a = b :=
  ⟨fun _ => parse_of_tokens hlex, fun _ _ _ ha hb => ha.unique hb⟩

lemma derives_signed_quotient : Derives .expr [.minus, .lparen, .name "p1", .minus, .name "p0",
    .rparen, .slash, .name "Pi"] (.div (.neg (.sub (.arg 1) (.arg 0))) .pi) := by
  have hp1 : Derives .factor [.name "p1"] (.arg 1) :=
    .name (@Names.arg ['1'] (by decide) (List.all_eq_true.mp rfl) (by decide))
  have hp0 : Derives .factor [.name "p0"] (.arg 0) :=
    .name (@Names.arg ['0'] (by decide) (List.all_eq_true.mp rfl) (by decide))
  have hpi : Derives .factor [.name "Pi"] .pi := .name (.pi (by decide))
  have hgroup := Derives.group (.sum .sub (.term (.factor hp1)) (.factor hp0))
  exact .term (.product .div (.factor (.neg hgroup)) hpi)

/-- A sign takes the bracket and not the quotient. -/
theorem parse_signed_quotient :
    parse "-(p1 - p0) / Pi" = .ok (.div (.neg (.sub (.arg 1) (.arg 0))) .pi) := by
  have hlex : tokensFrom 0 "-(p1 - p0) / Pi".toList = .ok [(.minus, 0), (.lparen, 1),
      (.name "p1", 2), (.minus, 5), (.name "p0", 7), (.rparen, 9), (.slash, 11),
      (.name "Pi", 13)] := by cbv
  exact ((parse_eq_ok_iff hlex).1 _).mpr derives_signed_quotient

end QCircuit.Expr
