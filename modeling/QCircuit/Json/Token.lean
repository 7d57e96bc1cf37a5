import QCircuit.Json.Value

/-!
The tokens of JSON text, and their text.

A word is a run of letters, digits, signs and points: a literal name or a number.
-/

namespace QCircuit.Json

inductive Token where
  | openArr
  | closeArr
  | openObj
  | closeObj
  | colon
  | comma
  | null
  | bool (b : Bool)
  | num (n : Numeral)
  | str (s : Str)
  deriving DecidableEq, Repr

def hexDigit (n : Nat) : Char := Nat.digitChar (n % 16)

/-- A character inside a string literal: quotes, backslashes and control characters are escaped. -/
def escape (c : Char) : List Char :=
  if c = '"' then ['\\', '"']
  else if c = '\\' then ['\\', '\\']
  else if c = '\n' then ['\\', 'n']
  else if c = '\r' then ['\\', 'r']
  else if c = '\t' then ['\\', 't']
  else if c = '\x08' then ['\\', 'b']
  else if c = '\x0c' then ['\\', 'f']
  else if c.toNat < 0x20 then ['\\', 'u', '0', '0', hexDigit (c.toNat / 16), hexDigit c.toNat]
  else [c]

def Str.quoted : Str → List Char
  | .text s => '"' :: s.toList.flatMap escape ++ ['"']
  | .unpaired => "\"\\ud800\"".toList

def Token.text : Token → List Char
  | .openArr => ['[']
  | .closeArr => [']']
  | .openObj => ['\x7b']
  | .closeObj => ['\x7d']
  | .colon => [':']
  | .comma => [',']
  | .null => "null".toList
  | .bool true => "true".toList
  | .bool false => "false".toList
  | .num n => n.text
  | .str s => s.quoted

/-- The digits after an optional point. -/
def fraction? : List Char → Option (List Char × List Char)
  | '.' :: cs =>
    if (cs.takeWhile Char.isDigit).isEmpty then none
    else some (cs.takeWhile Char.isDigit, cs.dropWhile Char.isDigit)
  | cs => some ([], cs)

/-- A whole text as an exponent. -/
def exponent? : List Char → Option Int
  | [] => some 0
  | c :: cs =>
    let (neg, ds) := match cs with
      | '-' :: ds => (true, ds)
      | '+' :: ds => (false, ds)
      | ds => (false, ds)
    if (c = 'e' ∨ c = 'E') ∧ ds ≠ [] ∧ ds.all Char.isDigit then
      some (if neg then -(Decimal.ofDigits ds : Int) else Decimal.ofDigits ds)
    else none

/-- A whole text as a number: no leading zero, digits on both sides of a point. -/
def Numeral.read? (cs : List Char) : Option Numeral :=
  let (neg, cs) := match cs with
    | '-' :: cs => (true, cs)
    | cs => (false, cs)
  let whole := cs.takeWhile Char.isDigit
  let rest := cs.dropWhile Char.isDigit
  if whole.isEmpty || (whole.length != 1 && whole.head? == some '0') then none
  else if rest.isEmpty then
    let n := Decimal.ofDigits whole
    if neg && n == 0 then some (.dec true ⟨0, 0⟩) else some (.int (if neg then -n else n))
  else do
    let (places, rest) ← fraction? rest
    let e ← exponent? rest
    some (.dec neg (Decimal.cut whole places e))

/-- The token that a finished word stands for. -/
def Token.ofWord? (cs : List Char) : Option Token :=
  if cs = "null".toList then some .null
  else if cs = "true".toList then some (.bool true)
  else if cs = "false".toList then some (.bool false)
  else (Numeral.read? cs).map .num

end QCircuit.Json
