import QCircuit.Expr.Basic
import QCircuit.Json.Decode

/-!
Expressions as JSON variants.

Reading may open a bounded number of nested arrays and objects; `room` counts those left.
-/

namespace QCircuit.Expr

open Json (Value)

def toJson : Expr → Value
  | .const x => Value.record [("Constant", Value.float x)]
  | .arg i => Value.record [("Arg", Value.nat i)]
  | .pi => Value.text "Pi"
  | .neg e => Value.record [("Neg", e.toJson)]
  | .add a b => Value.record [("Add", .arr [a.toJson, b.toJson])]
  | .sub a b => Value.record [("Sub", .arr [a.toJson, b.toJson])]
  | .mul a b => Value.record [("Mul", .arr [a.toJson, b.toJson])]
  | .div a b => Value.record [("Div", .arr [a.toJson, b.toJson])]

/-- An expression below `room` more arrays and objects. -/
def ofJson? : (room : Nat) → Value → Option Expr
  | _, .str (.text "Pi") => some .pi
  | _ + 1, .obj [(.text "Pi", .null)] => some .pi
  | _ + 1, .obj [(.text "Constant", v)] => v.float?.map .const
  | _ + 1, .obj [(.text "Arg", v)] => v.word64?.map .arg
  | room + 1, .obj [(.text "Neg", v)] => (ofJson? room v).map .neg
  | room + 2, .obj [(.text k, .arr [v, w])] => do
    let op ← match k with
      | "Add" => some Expr.add
      | "Sub" => some Expr.sub
      | "Mul" => some Expr.mul
      | "Div" => some Expr.div
      | _ => none
    return op (← ofJson? room v) (← ofJson? room w)
  | _, _ => none

end QCircuit.Expr
