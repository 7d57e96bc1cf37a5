import QCircuit.Decimal

/-!
JSON values.

A number keeps the form that matters to its reader: an integer literal, or a signed decimal with
the digits that fit a word of 64 bits. A string literal whose escapes name half of a surrogate pair has no
text; it may stand where nobody reads it.
-/

namespace QCircuit.Json

/-- A number literal. The literal `-0` is a decimal, since no integer has that sign. -/
inductive Numeral where
  | int (n : Int)
  | dec (neg : Bool) (d : Decimal)
  deriving DecidableEq, Repr

namespace Numeral

/-- The range of exponents of the first digit in which a number is written without one. -/
def isPositional (d : Decimal) : Bool := decide (-5 ≤ d.lead ∧ d.lead < 16)

/-- The fewest digits that name a finite double, and a zero after the point where the number is
written without an exponent and would show none. -/
def ofFloat? (x : Float) : Option Numeral :=
  match Binary64.decode x with
  | .finite neg m e =>
    let d := Decimal.shortest .even m e
    some (.dec neg
      (if isPositional d ∧ 0 ≤ d.exp then ⟨d.digits * Nat.pow 10 (d.exp + 1).toNat, -1⟩ else d))
  | _ => none

/-- The double that a literal is read as, unless it is beyond every finite one. -/
def toFloat? : Numeral → Option Float
  | .int n => (Decimal.cut (Decimal.digitsOf n.natAbs) [] 0).quick? (decide (n < 0))
  | .dec neg d => d.quick? neg

/-- Numbers are written without an exponent from `10 ^ -5` up to `10 ^ 16`, and a decimal always
shows a point or an exponent. -/
def text : Numeral → List Char
  | .int n => (if n < 0 then ['-'] else []) ++ Decimal.digitsOf n.natAbs
  | .dec neg d =>
    (if neg then ['-'] else []) ++
      if isPositional d then d.positional ++ (if d.exp < 0 then [] else ['.', '0'])
      else d.scientific

end Numeral

/-- What a string literal holds. -/
inductive Str where
  | text (s : String)
  | unpaired
  deriving DecidableEq, Repr

inductive Value where
  | null
  | bool (b : Bool)
  | num (n : Numeral)
  | str (s : Str)
  | arr (items : List Value)
  | obj (fields : List (Str × Value))
  deriving Repr, Inhabited

namespace Value

def text (s : String) : Value := .str (.text s)

def nat (n : Nat) : Value := .num (.int n)

def int (n : Int) : Value := .num (.int n)

/-- A double; what is not a finite number has no literal and becomes `null`. -/
def float (x : Float) : Value := ((Numeral.ofFloat? x).map Value.num).getD .null

def list {α : Type} (f : α → Value) (xs : List α) : Value := .arr (xs.map f)

def record (fields : List (String × Value)) : Value :=
  .obj (fields.map fun (k, v) => (.text k, v))

end Value
end QCircuit.Json
