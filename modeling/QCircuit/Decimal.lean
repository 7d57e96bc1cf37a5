import QCircuit.Binary64

/-!
Decimal numbers `digits · 10 ^ exp`, and the fewest digits that name a double.

Exact reading rounds to the nearest double; quick reading rounds the digits to a double and scales
that by a power of ten. Writing takes the coarsest decimal grid that has a point in the interval of
reals rounding to the double, so no decimal with fewer digits rounds to it.
-/

namespace QCircuit

/-- The number `digits · 10 ^ exp`. -/
structure Decimal where
  digits : Nat
  exp : Int
  deriving DecidableEq, Repr

namespace Decimal

/-- The digits of a natural number in base ten. -/
def digitsOf (n : Nat) : List Char := Nat.toDigits 10 n

/-- The number that a run of decimal digits names. -/
def ofDigits (cs : List Char) : Nat := cs.foldl (fun n c => 10 * n + (c.toNat - '0'.toNat)) 0

/-- The exponent of the first digit. -/
def lead (d : Decimal) : Int := d.exp + (digitsOf d.digits).length - 1

/-- The nearest double. Beyond `10 ^ 310` that is infinity and below `10 ^ -330` it is zero, so
the powers of ten that are computed stay small. -/
def toFloat (neg : Bool) (d : Decimal) : Float :=
  if d.digits = 0 || d.lead < -330 then Binary64.ofRatio neg 0 1
  else if 310 < d.lead then Binary64.ofRatio neg (1 <<< 1024) 1
  else Binary64.ofRatio neg (d.digits * Nat.pow 10 d.exp.toNat) (Nat.pow 10 (-d.exp).toNat)

/-- Appends digits to `n` while the number fits a word of 64 bits; the others come with it. -/
def append (n : Nat) : List Char → Nat × List Char
  | [] => (n, [])
  | c :: cs =>
    let m := 10 * n + (c.toNat - '0'.toNat)
    if m < 18446744073709551616 then append m cs else (n, c :: cs)

/-- The number with these digits before and after the point, cut down to a word of 64 bits. Whole
digits that do not fit count as zeros; the digits after the point are then appended as if none
were missing, and those that do not fit are dropped. -/
def cut (whole places : List Char) (exp : Int) : Decimal :=
  let (n, skipped) := append 0 whole
  let (m, dropped) := append n places
  ⟨m, exp + skipped.length - (places.length - dropped.length : Nat)⟩

/-- `x · 10 ^ k` by one product or quotient of doubles, as the table of powers goes up to
`10 ^ 308`; smaller numbers take further quotients. None when the product is not finite. -/
def scale (x : Float) (k : Int) : Option Float :=
  let power (n : Nat) : Float := Binary64.ofRatio false (Nat.pow 10 n) 1
  if k < -308 then
    if x == 0.0 then some x else scale (x / power 308) (k + 308)
  else if k < 0 then some (x / power (-k).toNat)
  else if k ≤ 308 then
    let y := x * power k.toNat
    if y.isFinite then some y else none
  else if x == 0.0 then some x
  else none
termination_by (-k).toNat

/-- The double that the digits give when they are rounded first and scaled after. It may miss the
nearest one by the second rounding. -/
def quick? (neg : Bool) (d : Decimal) : Option Float :=
  (scale (Binary64.ofRatio false d.digits 1) d.exp).map fun x => if neg then -x else x

/-- The multiple of `10 ^ k` that reads back as the double `m · 2 ^ e`, if there is one; of two
the nearer. Lengths are counted in quarters of `2 ^ e`. -/
def onGrid (tie : Tie) (m : Nat) (e k : Int) : Option Nat :=
  let p := Nat.pow 10 k.toNat <<< (2 - e).toNat
  let q := Nat.pow 10 (-k).toNat <<< (e - 2).toNat
  let low := if m = Binary64.lead ∧ -1074 < e then 4 * m - 1 else 4 * m - 2
  let high := 4 * m + 2
  let inside (n : Nat) : Bool :=
    if m % 2 = 0 then low * q ≤ n * p && n * p ≤ high * q
    else low * q < n * p && n * p < high * q
  let below := 4 * m * q / p
  [roundDiv tie (4 * m * q) p, below, below + 1].find? inside

/-- The fewest digits that read back as the double `m · 2 ^ e`. -/
def shortest (tie : Tie) (m : Nat) (e : Int) : Decimal :=
  if m = 0 then ⟨0, 0⟩
  else
    let top := (m.log2 + e) * 30103 / 100000 + 2
    let hit (i : Nat) : Option Decimal :=
      (onGrid tie m e (top - i)).map fun d => ⟨d, top - i⟩
    ((List.range 21).findSome? hit).getD ⟨0, 0⟩

def zeros (n : Nat) : List Char := List.replicate n '0'

/-- The number without an exponent. -/
def positional (d : Decimal) : List Char :=
  let ds := digitsOf d.digits
  let places := (-d.exp).toNat
  if places = 0 then ds ++ zeros d.exp.toNat
  else if places < ds.length then
    ds.take (ds.length - places) ++ '.' :: ds.drop (ds.length - places)
  else '0' :: '.' :: zeros (places - ds.length) ++ ds

/-- The number with one digit before the point and an exponent. -/
def scientific (d : Decimal) : List Char :=
  let tail := (digitsOf d.digits).drop 1
  let sign := if d.lead < 0 then '-' else '+'
  (digitsOf d.digits).take 1 ++ (if tail.isEmpty then [] else '.' :: tail) ++
    'e' :: sign :: digitsOf d.lead.natAbs

end Decimal

/-- The text of a double: its sign, then its words or digits. -/
def Binary64.text (finite : Nat → Int → List Char) (x : Float) : List Char :=
  let sign (neg : Bool) : List Char := if neg then ['-'] else []
  match decode x with
  | .nan => "NaN".toList
  | .inf neg => sign neg ++ "inf".toList
  | .finite neg m e => sign neg ++ finite m e

/-- A double with the given number of places after the point, a half going to the even
neighbour. -/
def Binary64.fixed (places : Nat) (x : Float) : List Char :=
  Binary64.text (fun m e =>
    let n := roundDiv .even (m <<< e.toNat * Nat.pow 10 places) (1 <<< (-e).toNat)
    let ds := Decimal.digitsOf n
    let padded := Decimal.zeros (places + 1 - ds.length) ++ ds
    padded.take (padded.length - places) ++
      (if places = 0 then [] else '.' :: padded.drop (padded.length - places))) x

end QCircuit
