import QCircuit.Text
import QCircuit.Json.Decode

/-!
Conditions on classical bits.

A condition reads its bits as one signed 64-bit word, first bit most significant, and compares
it with a constant. Bits beyond the sixty-fourth push the first ones out.
-/

namespace QCircuit

open Json (Value)

inductive Relation where
  | eq
  | ne
  | lt
  | gt
  | le
  | ge
  deriving DecidableEq, Repr

namespace Relation

def all : List Relation := [.eq, .ne, .lt, .gt, .le, .ge]

def symbol : Relation → String
  | .eq => "=="
  | .ne => "!="
  | .lt => "<"
  | .gt => ">"
  | .le => "<="
  | .ge => ">="

def code : Relation → Int
  | .eq => 0
  | .ne => 1
  | .lt => 2
  | .gt => 3
  | .le => 4
  | .ge => 5

def name : Relation → String
  | .eq => "Eq"
  | .ne => "Ne"
  | .lt => "Lt"
  | .gt => "Gt"
  | .le => "Le"
  | .ge => "Ge"

def ofCode? (n : Int) : Option Relation := all.find? (·.code = n)

/-- The relation with this symbol, blanks around it allowed. -/
def ofSymbol? (s : String) : Option Relation := all.find? (·.symbol = Text.trim s)

def holds : Relation → Int → Int → Bool
  | .eq, a, b => a = b
  | .ne, a, b => a ≠ b
  | .lt, a, b => a < b
  | .gt, a, b => b < a
  | .le, a, b => a ≤ b
  | .ge, a, b => b ≤ a

def toJson (r : Relation) : Value := Value.text r.name

def ofJson? (v : Value) : Option Relation := do
  let (k, .null) ← v.variant? | none
  all.find? (·.name = k)

end Relation

structure Condition where
  clbits : List Nat
  relation : Relation
  constant : Int
  deriving DecidableEq, Repr

namespace Condition

/-- The signed 64-bit word that the bits form; a bit that the state does not have reads as 0. -/
def value (c : Condition) (state : List Bool) : Int :=
  let push (n : Int) (b : Nat) : Int :=
    (2 * n + if state.getD b false then 1 else 0).bmod 18446744073709551616
  c.clbits.foldl push 0

def holds (c : Condition) (state : List Bool) : Bool :=
  c.relation.holds (c.value state) c.constant

def reads (c : Condition) (clbit : Nat) : Bool := c.clbits.contains clbit

def text (c : Condition) : String :=
  "[" ++ ", ".intercalate (c.clbits.map fun b => s!"c{b}") ++ "] " ++ c.relation.symbol ++
    s!" {c.constant}"

def toJson (c : Condition) : Value :=
  Value.record [("clbits", Value.list Value.nat c.clbits), ("relation", c.relation.toJson),
    ("constant", Value.int c.constant)]

def ofJson? (v : Value) : Option Condition := do
  let [clbits, relation, constant] ← v.fields? ["clbits", "relation", "constant"] | none
  return ⟨← (← clbits).list? Value.word32?, ← Relation.ofJson? (← relation), ← (← constant).int64?⟩

end Condition
end QCircuit
