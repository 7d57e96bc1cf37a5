import QCircuit.Expr.Basic
import QCircuit.Text

/-!
The tokens of an expression.

At each place the longest token is taken. Every token is made of ASCII characters, so the number
of characters before one is its offset in bytes as well.
-/

namespace QCircuit.Expr

inductive Token where
  | number (x : Float)
  | name (s : String)
  | plus
  | minus
  | star
  | slash
  | lparen
  | rparen
  deriving BEq, Repr

/-- Why a text is not an expression. -/
inductive Reason where
  | invalidToken (c : Char)
  | unexpectedEnd
  | expectedClose
  | unknownName
  | unexpectedToken
  | trailingInput
  deriving DecidableEq, Repr

/-- A fault and the place where it shows. -/
structure Fault where
  reason : Reason
  offset : Nat
  deriving DecidableEq, Repr

def Reason.message : Reason → String
  | .invalidToken c => "invalid token '" ++ String.singleton c ++ "'"
  | .unexpectedEnd => "unexpected end of input"
  | .expectedClose => "expected ')'"
  | .unknownName => "unknown identifier"
  | .unexpectedToken => "unexpected token"
  | .trailingInput => "unexpected trailing input"

def Fault.message (f : Fault) : String := f.reason.message ++ s!" at offset {f.offset}"

/-- The exponent at the start of a text and its length; without a digit there is none. -/
def exponentAt (cs : List Char) : Int × Nat :=
  match cs with
  | c :: cs =>
    let (negative, sign, ds) := match cs with
      | '-' :: ds => (true, 1, ds)
      | '+' :: ds => (false, 1, ds)
      | ds => (false, 0, ds)
    let run := ds.takeWhile Char.isDigit
    if (c = 'e' ∨ c = 'E') ∧ run ≠ [] then
      let n : Int := Decimal.ofDigits run
      (if negative then -n else n, 1 + sign + run.length)
    else (0, 0)
  | [] => (0, 0)

/-- The number at the start of a text and its length: digits, a point with digits on one side of
it at least, an exponent. -/
def numberAt (cs : List Char) : Option (Float × Nat) :=
  let whole := cs.takeWhile Char.isDigit
  let places := match cs.drop whole.length with
    | '.' :: ds => some (ds.takeWhile Char.isDigit)
    | _ => none
  let fraction := places.getD []
  if whole.isEmpty && fraction.isEmpty then none
  else
    let n := whole.length + (places.map (·.length + 1)).getD 0
    let (e, width) := exponentAt (cs.drop n)
    some (Decimal.toFloat false ⟨Decimal.ofDigits (whole ++ fraction), e - fraction.length⟩,
      n + width)

def startsName (c : Char) : Bool := c.isAlpha || c == '_'
def inName (c : Char) : Bool := c.isAlphanum || c == '_'

/-- The token at the start of a text and its length. -/
def tokenAt (cs : List Char) : Option (Token × Nat) :=
  match cs with
  | [] => none
  | '+' :: _ => some (.plus, 1)
  | '-' :: _ => some (.minus, 1)
  | '*' :: _ => some (.star, 1)
  | '/' :: _ => some (.slash, 1)
  | '(' :: _ => some (.lparen, 1)
  | ')' :: _ => some (.rparen, 1)
  | c :: rest =>
    if startsName c then
      let run := c :: rest.takeWhile inName
      some (.name (String.ofList run), run.length)
    else (numberAt cs).map fun (x, n) => (.number x, n)

def isGap (c : Char) : Bool := c == ' ' || c == '\t' || c == '\r' || c == '\n'

/-- The tokens of a text that starts at `pos`, each with its offset. -/
def tokensFrom (pos : Nat) (cs : List Char) : Except Fault (List (Token × Nat)) :=
  match cs with
  | [] => .ok []
  | c :: rest =>
    if isGap c then tokensFrom (pos + 1) rest
    else match tokenAt (c :: rest) with
      | none => .error ⟨.invalidToken c, pos⟩
      | some (t, n) =>
        (tokensFrom (pos + 1 + (n - 1)) (rest.drop (n - 1))).map ((t, pos) :: ·)
termination_by cs.length

end QCircuit.Expr
