/-!
Doubles as exact numbers.

A finite double is `± m · 2 ^ e`, read off its bits; a ratio of naturals is rounded to the
nearest double, a tie going to the even neighbour. All of it is arithmetic on naturals.
-/

namespace QCircuit

/-- Where a number half way between two neighbours goes. -/
inductive Tie where
  | even
  | away
  deriving DecidableEq, Repr

/-- The natural number nearest to `num / den`. -/
def roundDiv (tie : Tie) (num den : Nat) : Nat :=
  let q := num / den
  let r := num % den
  if 2 * r < den then q
  else if den < 2 * r then q + 1
  else match tie with
    | .even => q + q % 2
    | .away => q + 1

namespace Binary64

/-- The weight of the leading bit of a normal number, in units of its last bit. -/
def lead : Nat := 4503599627370496

/-- What the bits of a double stand for. -/
inductive Value where
  | nan
  | inf (neg : Bool)
  | finite (neg : Bool) (m : Nat) (e : Int)
  deriving DecidableEq, Repr

def decode (x : Float) : Value :=
  let b := x.toBits.toNat
  let neg := decide (9223372036854775808 ≤ b)
  let exponent : Nat := b / lead % 2048
  let fraction : Nat := b % lead
  if exponent = 2047 then (if fraction = 0 then .inf neg else .nan)
  else if exponent = 0 then .finite neg fraction (-1074)
  else .finite neg (lead + fraction) ((exponent : Int) - 1075)

/-- The exponent `e` for which `num / den`, in units of `2 ^ e`, has 53 bits, or the least
exponent there is. -/
def exponentOf (num den : Nat) : Int :=
  let low : Int := max ((num.log2 : Int) - den.log2 - 53) (-1074)
  if num <<< (-low).toNat / (den <<< low.toNat) < 2 * lead then low else low + 1

/-- The bits of the double nearest to `num / den`, infinity when it is too large. -/
def magnitude (num den : Nat) : Nat :=
  if num = 0 then 0
  else
    let e := exponentOf num den
    let q := roundDiv .even (num <<< (-e).toNat) (den <<< e.toNat)
    min ((e + 1074).toNat * lead + q) (2047 * lead)

def ofRatio (neg : Bool) (num den : Nat) : Float :=
  Float.ofBits (UInt64.ofNat (magnitude num den + if neg then 9223372036854775808 else 0))

/-- `± m · 2 ^ e`, rounded. -/
def ofScaled (neg : Bool) (m : Nat) (e : Int) : Float :=
  ofRatio neg (m <<< e.toNat) (1 <<< (-e).toNat)

/-- The integer nearest to `x`, half way between two the one further from zero. What is not finite
stays. -/
def round (x : Float) : Float :=
  match decode x with
  | .finite neg m e => ofRatio neg (roundDiv .away (m <<< e.toNat) (1 <<< (-e).toNat)) 1
  | _ => x

/-- The remainder of `x` by `y` with the sign of `x`. It is exact: the remainder of two doubles
is a double. -/
def rem (x y : Float) : Float :=
  match decode x, decode y with
  | .finite neg m e, .finite _ n f =>
    if n = 0 then 0.0 / 0.0
    else
      let k := min e f
      ofScaled neg ((m <<< (e - k).toNat) % (n <<< (f - k).toNat)) k
  | .finite .., .inf _ => x
  | _, _ => 0.0 / 0.0

end Binary64
end QCircuit
