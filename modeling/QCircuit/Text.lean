/-!
Blanks around a text, and decimal numbers in it.
-/

namespace QCircuit.Text

/-- The characters with the Unicode property White_Space. -/
def isBlank (c : Char) : Bool :=
  let n := c.toNat
  (9 ≤ n && n ≤ 13) || n == 0x20 || n == 0x85 || n == 0xA0 || n == 0x1680 ||
    (0x2000 ≤ n && n ≤ 0x200A) || n == 0x2028 || n == 0x2029 || n == 0x202F ||
    n == 0x205F || n == 0x3000

/-- The text without the blanks at both ends. -/
def trim (s : String) : String :=
  String.ofList ((s.toList.dropWhile isBlank).reverse.dropWhile isBlank).reverse

/-- A non-empty run of digits as a number below `bound`. -/
def digits? (bound : Nat) (cs : List Char) : Option Nat :=
  let n := cs.foldl (fun n c => 10 * n + (c.toNat - '0'.toNat)) 0
  if !cs.isEmpty && cs.all Char.isDigit && n < bound then some n else none

/-- A number below `bound` in decimal digits, a plus sign allowed before them. -/
def number? (bound : Nat) (s : String) : Option Nat :=
  match s.toList with
  | '+' :: cs => digits? bound cs
  | cs => digits? bound cs

end QCircuit.Text
