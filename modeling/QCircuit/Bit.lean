/-!
The two kinds of bits, and the roles a bit can play for a gate.
-/

namespace QCircuit

inductive BitKind where
  | qubit
  | clbit
  deriving DecidableEq, Repr

/-- The letter that register names and conditions use. -/
def BitKind.letter : BitKind → Char
  | .qubit => 'q'
  | .clbit => 'c'

def BitKind.name : BitKind → String
  | .qubit => "qubit"
  | .clbit => "clbit"

/-- A quantum operand, a classical operand, or a classical bit that a condition reads. -/
inductive Wire where
  | qubit
  | clbit
  | conbit
  deriving DecidableEq, Repr

end QCircuit
