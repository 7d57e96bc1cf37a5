import QCircuit.Decimal

/-!
Arithmetic over positional arguments `p0, p1, …`.

A gate inside a definition computes its parameters from those of the call. The arity of an
expression is how many arguments it needs; it has no value when one is missing or a divisor is
zero. Indices and arities are 64-bit words, and behind the last index the arity starts again at 0.
-/

namespace QCircuit

inductive Expr where
  | const (x : Float)
  | arg (i : Nat)
  | pi
  | neg (e : Expr)
  | add (a b : Expr)
  | sub (a b : Expr)
  | mul (a b : Expr)
  | div (a b : Expr)
  deriving BEq, Repr, Inhabited

/-- The double nearest to π. -/
def pi : Float := 3.141592653589793

namespace Expr

/-- One more than the greatest index of an argument, where one more than the last word is 0. -/
def arity : Expr → Nat
  | .const _ | .pi => 0
  | .arg i => (i + 1) % 18446744073709551616
  | .neg e => e.arity
  | .add a b | .sub a b | .mul a b | .div a b => max a.arity b.arity

/-- Whether the arity of an argument is no word. Arithmetic that is checked stops there. -/
def overflows : Expr → Bool
  | .const _ | .pi => false
  | .arg i => 18446744073709551615 ≤ i
  | .neg e => e.overflows
  | .add a b | .sub a b | .mul a b | .div a b => a.overflows || b.overflows

/-- The value for these arguments. The length of a list is a word, so none has an argument at the last
index. -/
def evaluate (args : List Float) : Expr → Option Float
  | .const x => some x
  | .arg i => if i < 18446744073709551615 then args[i]? else none
  | .pi => some QCircuit.pi
  | .neg e => (e.evaluate args).map (-·)
  | .add a b => do return (← a.evaluate args) + (← b.evaluate args)
  | .sub a b => do return (← a.evaluate args) - (← b.evaluate args)
  | .mul a b => do return (← a.evaluate args) * (← b.evaluate args)
  | .div a b => do
    let divisor ← b.evaluate args
    if divisor == 0 then none else return (← a.evaluate args) / divisor

/-- A constant is written in full, without an exponent; a tie between two shortest forms goes
away from zero. -/
def constant (x : Float) : List Char :=
  Binary64.text (fun m e => (Decimal.shortest .away m e).positional) x

/-- The characters of an expression before those of `rest`; every operation stands in brackets. -/
def charsThen (rest : List Char) : Expr → List Char
  | .const x => constant x ++ rest
  | .arg i => 'p' :: Decimal.digitsOf i ++ rest
  | .pi => 'p' :: 'i' :: rest
  | .neg e => '-' :: '(' :: e.charsThen (')' :: rest)
  | .add a b => '(' :: a.charsThen (' ' :: '+' :: ' ' :: b.charsThen (')' :: rest))
  | .sub a b => '(' :: a.charsThen (' ' :: '-' :: ' ' :: b.charsThen (')' :: rest))
  | .mul a b => '(' :: a.charsThen (' ' :: '*' :: ' ' :: b.charsThen (')' :: rest))
  | .div a b => '(' :: a.charsThen (' ' :: '/' :: ' ' :: b.charsThen (')' :: rest))

def text (e : Expr) : String := String.ofList (e.charsThen [])

end Expr
end QCircuit
