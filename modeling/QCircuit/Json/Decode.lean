import QCircuit.Json.Reader

/-!
Reading typed data out of JSON values.

A record is an object, or an array of its fields in order with trailing ones left off. Unknown
fields are passed over; a known one may not occur twice. A variant is an object with one field,
or its name alone, which stands for a `null` payload.
-/

namespace QCircuit.Json.Value

def text? : Value → Option String
  | .str (.text s) => some s
  | _ => none

def bool? : Value → Option Bool
  | .bool b => some b
  | _ => none

/-- An integer literal in the given range. -/
def int? (low high : Int) : Value → Option Int
  | .num (.int n) => if low ≤ n ∧ n < high then some n else none
  | _ => none

def nat? (bound : Nat) (v : Value) : Option Nat := (v.int? 0 bound).map Int.toNat

def word32? (v : Value) : Option Nat := v.nat? 4294967296

def word64? (v : Value) : Option Nat := v.nat? 18446744073709551616

def int64? (v : Value) : Option Int := v.int? (-9223372036854775808) 9223372036854775808

def float? : Value → Option Float
  | .num n => n.toFloat?
  | _ => none

def list? {α : Type} (f : Value → Option α) : Value → Option (List α)
  | .arr vs => vs.mapM f
  | _ => none

def nullable? {α : Type} (f : Value → Option α) : Value → Option (Option α)
  | .null => some none
  | v => (f v).map some

/-- The name and the payload of a variant. -/
def variant? : Value → Option (String × Value)
  | .str (.text s) => some (s, .null)
  | .obj [(.text k, v)] => some (k, v)
  | _ => none

/-- The field of this name; twice is an error, and so is a key without text. -/
def field? (fields : List (Str × Value)) (name : String) : Option (Option Value) :=
  match fields.filter (·.1 = .text name) with
  | [] => some none
  | [(_, v)] => some (some v)
  | _ => none

/-- The fields of a record, in the order of `names`. -/
def fields? (names : List String) : Value → Option (List (Option Value))
  | .obj fs => if fs.any (·.1 = .unpaired) then none else names.mapM (field? fs)
  | .arr vs =>
    if vs.length ≤ names.length then
      some (vs.map some ++ List.replicate (names.length - vs.length) none)
    else none
  | _ => none

end QCircuit.Json.Value
