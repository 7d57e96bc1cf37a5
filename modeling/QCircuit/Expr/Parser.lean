import QCircuit.Expr.Token

/-!
Expressions from tokens, in one pass.

    expr   := term (('+' | '-') term)*
    term   := factor (('*' | '/') factor)*
    factor := '-' factor | number | name | '(' expr ')'

Each open bracket is a level that remembers the sum and the product waiting for their right
operand, and the signs in front of the factor that is due.
-/

namespace QCircuit.Expr

inductive SumOp where
  | add
  | sub
  deriving DecidableEq, Repr

inductive ProductOp where
  | mul
  | div
  deriving DecidableEq, Repr

def SumOp.apply : SumOp → Expr → Expr → Expr
  | .add => .add
  | .sub => .sub

def ProductOp.apply : ProductOp → Expr → Expr → Expr
  | .mul => .mul
  | .div => .div

/-- `e` under `n` signs. -/
def negate : Nat → Expr → Expr
  | 0, e => e
  | n + 1, e => .neg (negate n e)

namespace Parser

structure Level where
  sum : Option (Expr × SumOp) := none
  product : Option (Expr × ProductOp) := none
  signs : Nat := 0

inductive St where
  /-- A factor is due. -/
  | before (level : Level) (outer : List Level)
  /-- A factor has ended the term so far. -/
  | after (term : Expr) (sum : Option (Expr × SumOp)) (outer : List Level)

def sumWith (sum : Option (Expr × SumOp)) (term : Expr) : Expr :=
  match sum with
  | none => term
  | some (lhs, op) => op.apply lhs term

def productWith (product : Option (Expr × ProductOp)) (factor : Expr) : Expr :=
  match product with
  | none => factor
  | some (lhs, op) => op.apply lhs factor

/-- A factor ends the term of its level, signs and product applied. -/
def operand (level : Level) (outer : List Level) (e : Expr) : St :=
  .after (productWith level.product (negate level.signs e)) level.sum outer

/-- `pi` in any case, or `p` and the index of an argument. -/
def nameExpr? (s : String) : Option Expr :=
  if s.toLower = "pi" then some .pi
  else match s.toList with
    | 'p' :: ds => (Text.digits? 18446744073709551616 ds).map .arg
    | _ => none

def step : St → Token → Except Reason St
  | .before l outer, .minus => .ok (.before { l with signs := l.signs + 1 } outer)
  | .before l outer, .lparen => .ok (.before ⟨none, none, 0⟩ (l :: outer))
  | .before l outer, .number x => .ok (operand l outer (.const x))
  | .before l outer, .name s =>
    match nameExpr? s with
    | some e => .ok (operand l outer e)
    | none => .error .unknownName
  | .before .., _ => .error .unexpectedToken
  | .after t sum outer, .plus => .ok (.before ⟨some (sumWith sum t, .add), none, 0⟩ outer)
  | .after t sum outer, .minus => .ok (.before ⟨some (sumWith sum t, .sub), none, 0⟩ outer)
  | .after t sum outer, .star => .ok (.before ⟨sum, some (t, .mul), 0⟩ outer)
  | .after t sum outer, .slash => .ok (.before ⟨sum, some (t, .div), 0⟩ outer)
  | .after t sum (l :: outer), .rparen => .ok (operand l outer (sumWith sum t))
  | .after _ _ [], _ => .error .trailingInput
  | .after _ _ (_ :: _), _ => .error .expectedClose

/-- The expression, once the tokens have ended. -/
def St.done : St → Except Reason Expr
  | .before .. => .error .unexpectedEnd
  | .after t sum [] => .ok (sumWith sum t)
  | .after _ _ (_ :: _) => .error .expectedClose

/-- Takes the tokens from a state on; `stop` is the offset of the end. -/
def run (stop : Nat) (s : St) : List (Token × Nat) → Except Fault Expr
  | [] => s.done.mapError (⟨·, stop⟩)
  | (t, pos) :: ts =>
    match step s t with
    | .ok s' => run stop s' ts
    | .error r => .error ⟨r, pos⟩

end Parser

/-- The expression that a text spells. A bad character anywhere is reported before anything else. -/
def parse (src : String) : Except Fault Expr := do
  let ts ← tokensFrom 0 src.toList
  Parser.run src.utf8ByteSize (.before ⟨none, none, 0⟩ []) ts

end QCircuit.Expr
