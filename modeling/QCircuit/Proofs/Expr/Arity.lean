import Mathlib
import QCircuit.Expr.Parser

/-!
The arguments that an expression reads, and when it has a value.

An expression reads no argument past its arity. It has no value when one of its operands has none, so
it has one unless there is a fault in an expression somewhere inside it. There are two faults: an
argument that is missing, and a divisor that is zero. With fewer arguments than the arity one is
missing; with as many there is only the other fault, unless an argument stands at the last index. This
one is missing from every list, and the arity does not count it.
-/

namespace QCircuit.Expr

/-- Only the arguments below the arity are read. -/
lemma evaluate_take {e : Expr} {n : Nat} (hn : e.arity ≤ n) (args : List Float) :
    e.evaluate (args.take n) = e.evaluate args := by
  induction e with
  | const x => rfl
  | arg i =>
    rw [evaluate, evaluate]
    split
    · next hi =>
      rw [arity, Nat.mod_eq_of_lt (Nat.succ_lt_succ hi)] at hn
      exact List.getElem?_take_of_lt hn
    · rfl
  | pi => rfl
  | neg e ih => rw [evaluate, evaluate, ih hn]
  | add a b iha ihb | sub a b iha ihb | mul a b iha ihb | div a b iha ihb =>
    obtain ⟨ha, hb⟩ := Nat.max_le.mp hn
    rw [evaluate, evaluate, iha ha, ihb hb]

/-! ### Subexpressions -/

/-- The expressions that an operation is applied to. -/
def operands : Expr → List Expr
  | .const _ | .arg _ | .pi => []
  | .neg e => [e]
  | .add a b | .sub a b | .mul a b | .div a b => [a, b]

/-- An expression and those inside it. -/
def subexpressions : Expr → List Expr
  | .const x => [.const x]
  | .arg i => [.arg i]
  | .pi => [.pi]
  | .neg e => .neg e :: e.subexpressions
  | .add a b => .add a b :: (a.subexpressions ++ b.subexpressions)
  | .sub a b => .sub a b :: (a.subexpressions ++ b.subexpressions)
  | .mul a b => .mul a b :: (a.subexpressions ++ b.subexpressions)
  | .div a b => .div a b :: (a.subexpressions ++ b.subexpressions)

lemma mem_subexpressions {p e : Expr} :
    p ∈ e.subexpressions ↔ p = e ∨ ∃ o ∈ e.operands, p ∈ o.subexpressions := by
  cases e <;> simp [subexpressions, operands]

/-- Induction that takes all operations alike. -/
lemma operands_induct {P : Expr → Prop} (h : ∀ e, (∀ o ∈ e.operands, P o) → P e) (e : Expr) :
    P e := by
  induction e with
  | const x | arg i | pi => exact h _ (by simp [operands])
  | neg e ih => exact h _ (by simpa [operands] using ih)
  | add a b iha ihb | sub a b iha ihb | mul a b iha ihb | div a b iha ihb =>
    exact h _ (by simp [operands, iha, ihb])

/-- What an expression has from itself or from an operand, it has from a subexpression. -/
lemma iff_exists_subexpression {P Q : Expr → Prop}
    (hstep : ∀ e, Q e ↔ P e ∨ ∃ o ∈ e.operands, Q o) (e : Expr) :
    Q e ↔ ∃ p ∈ e.subexpressions, P p := by
  induction e using operands_induct with
  | h e ih =>
    rw [hstep]
    constructor
    · rintro (he | ⟨o, ho, hq⟩)
      · exact ⟨e, mem_subexpressions.mpr (.inl rfl), he⟩
      · obtain ⟨p, hp, hpp⟩ := (ih o ho).mp hq
        exact ⟨p, mem_subexpressions.mpr (.inr ⟨o, ho, hp⟩), hpp⟩
    · rintro ⟨p, hp, hpp⟩
      rcases mem_subexpressions.mp hp with rfl | ⟨o, ho, hp⟩
      · exact .inl hpp
      · exact .inr ⟨o, ho, (ih o ho).mpr ⟨p, hp, hpp⟩⟩

/-! ### Faults -/

/-- An argument that is not there. At the last index none is. -/
def Missing (args : List Float) : Expr → Prop
  | .arg i => args.length ≤ i ∨ 18446744073709551615 ≤ i
  | _ => False

/-- A quotient whose divisor has a value, and this is equal to zero. -/
def DividesByZero (args : List Float) : Expr → Prop
  | .div _ b => ∃ x, b.evaluate args = some x ∧ x == 0
  | _ => False

/-- An argument that is read is missing if and only if there are fewer than the arity or one stands at
the last index. -/
lemma exists_missing_iff {e : Expr} {args : List Float} :
    (∃ p ∈ e.subexpressions, p.Missing args) ↔ args.length < e.arity ∨ e.overflows = true := by
  have hstep : ∀ e : Expr, (args.length < e.arity ∨ e.overflows = true) ↔
      e.Missing args ∨ ∃ o ∈ e.operands, args.length < o.arity ∨ o.overflows = true := by
    intro e
    cases e with
    | const x | pi | neg e => simp [arity, overflows, operands, Missing]
    | arg i =>
      -- below the last index the arity is one more, and behind it both sides hold
      simp only [arity, overflows, operands, Missing, decide_eq_true_eq, List.not_mem_nil, false_and,
        exists_false, or_false]
      omega
    | add a b | sub a b | mul a b | div a b =>
      simp only [arity, overflows, operands, Missing, lt_max_iff, Bool.or_eq_true, false_or,
        List.mem_cons, List.not_mem_nil, or_false, exists_eq_or_imp, exists_eq_left]
      exact or_or_or_comm
  exact (iff_exists_subexpression hstep e).symm

/-- A sum, a difference and a product have no value only for want of an operand. -/
lemma both_eq_none_iff {x y : Option Float} {f : Float → Float → Float} :
    (do return f (← x) (← y)) = none ↔ x = none ∨ y = none := by
  cases x <;> cases y <;> simp

/-- One operation has no value by a fault of its own or for want of an operand. -/
lemma evaluate_eq_none_step (e : Expr) (args : List Float) :
    e.evaluate args = none ↔
      (e.Missing args ∨ e.DividesByZero args) ∨ ∃ o ∈ e.operands, o.evaluate args = none := by
  cases e with
  | const x | pi | neg e => simp [evaluate, operands, Missing, DividesByZero]
  | arg i =>
    simp only [evaluate, operands, Missing, DividesByZero, List.not_mem_nil, false_and, exists_false,
      or_false]
    split
    · next hi => rw [List.getElem?_eq_none_iff, or_iff_left (Nat.not_le.mpr hi)]
    · next hi => simp [Nat.le_of_not_lt hi]
  | add a b | sub a b | mul a b =>
    rw [evaluate, both_eq_none_iff]
    simp [operands, Missing, DividesByZero]
  | div a b =>
    simp only [evaluate, operands, Missing, DividesByZero]
    -- the divisor is looked at first, and a zero hides whether the dividend has a value
    cases hb : b.evaluate args with
    | none => simp [hb]
    | some x =>
      by_cases hx : x == 0
      · simp [hb, hx]
      · cases ha : a.evaluate args <;> simp [ha, hb, hx]

/-- An expression has no value by one of the two faults, somewhere inside it. -/
lemma evaluate_eq_none_iff {e : Expr} {args : List Float} :
    e.evaluate args = none ↔ (args.length < e.arity ∨ e.overflows = true) ∨
      ∃ p ∈ e.subexpressions, p.DividesByZero args := by
  have hfault := iff_exists_subexpression (evaluate_eq_none_step · args) e
  simp only [and_or_left, exists_or] at hfault
  rw [hfault, exists_missing_iff]

/-- A missing argument is noticed, wherever it is read. -/
lemma evaluate_eq_none_of_length_lt {e : Expr} {args : List Float} (h : args.length < e.arity) :
    e.evaluate args = none :=
  evaluate_eq_none_iff.mpr (.inl (.inl h))

/-- **The arity governs evaluation, except at the last index.** With fewer arguments an expression has
no value. With as many or more its value is that on the first ones, and it has none if and only if a
divisor somewhere inside it is zero or an argument stands at the last index, whose arity is no
word. -/
theorem evaluate_by_arity (e : Expr) (args : List Float) :
    (args.length < e.arity → e.evaluate args = none) ∧
      (e.arity ≤ args.length →
        e.evaluate args = e.evaluate (args.take e.arity) ∧
          (e.evaluate args = none ↔
            (∃ p ∈ e.subexpressions, p.DividesByZero args) ∨ e.overflows = true)) := by
  refine ⟨evaluate_eq_none_of_length_lt, fun h => ⟨(evaluate_take (Nat.le_refl _) args).symm, ?_⟩⟩
  rw [evaluate_eq_none_iff, or_iff_right (Nat.not_lt.mpr h), or_comm]

/-- The expression `-(p1 / (p0 - 1))`. -/
def negatedQuotient : Expr := .neg (.div (.arg 1) (.sub (.arg 0) (.const 1)))

/-- It takes two arguments, and the first one must not be 1. -/
theorem negatedQuotient_by_arity :
    (1 < negatedQuotient.arity ∧ negatedQuotient.evaluate [1] = none) ∧
      (negatedQuotient.arity ≤ 3 ∧
        negatedQuotient.evaluate [3, 5, 7] = negatedQuotient.evaluate [3, 5] ∧
          negatedQuotient.evaluate [3, 5] = some (-2.5)) ∧
      (negatedQuotient.arity ≤ 2 ∧ negatedQuotient.evaluate [1, 5] = none) := by
  have hshort : 1 < negatedQuotient.arity := by decide
  have hlong : negatedQuotient.arity ≤ 3 := by decide
  have hboth : negatedQuotient.arity ≤ 2 := by decide
  have hzero : DividesByZero [1, 5] (.div (.arg 1) (.sub (.arg 0) (.const 1))) :=
    ⟨1 - 1, rfl, by decide⟩
  refine ⟨⟨hshort, (evaluate_by_arity _ _).1 hshort⟩,
    ⟨hlong, ((evaluate_by_arity _ _).2 hlong).1, by decide +kernel⟩, ⟨hboth, ?_⟩⟩
  exact ((evaluate_by_arity _ _).2 hboth).2.mpr
    (.inl ⟨_, List.mem_cons_of_mem _ List.mem_cons_self, hzero⟩)

/-- The argument at the last index. -/
def lastArgument : Expr := .arg 18446744073709551615

/-- Its arity is 0, so it lacks no argument, and nothing is divided; yet it has no value. -/
theorem lastArgument_valueless :
    parse "p18446744073709551615" = .ok lastArgument ∧ lastArgument.arity = 0 ∧
      lastArgument.evaluate [] = none ∧
      ¬∃ p ∈ lastArgument.subexpressions, p.DividesByZero [] := by
  refine ⟨by cbv, by decide, by decide, ?_⟩
  rintro ⟨p, hp, hzero⟩
  obtain rfl := List.mem_singleton.mp hp
  exact hzero

end QCircuit.Expr
