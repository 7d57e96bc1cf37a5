import QCircuit.Bit
import QCircuit.Graph.Operation

/-!
What can be wrong with a circuit graph.
-/

namespace QCircuit

/-- Bits are global, or local slots of a definition. -/
inductive Scope where
  | global
  | inner
  deriving DecidableEq, Repr

/-- A bit as the builder sees it. -/
structure Leaf where
  scope : Scope
  kind : BitKind
  id : Nat
  deriving DecidableEq, Repr

def Leaf.text (l : Leaf) : String :=
  (match l.scope with
    | .global => ""
    | .inner => "local ") ++ l.kind.name ++ s!" {l.id}"

/-- Why a vertex cannot be used as asked. -/
inductive AccessFault where
  | notConditional
  | undeclared (kind : BitKind) (bit : Nat)
  | beyondLive (kind : BitKind) (bit dense live : Nat)
  | measureMismatch (name : String) (qubits clbits : Nat)
  deriving DecidableEq, Repr

def AccessFault.message : AccessFault → String
  | .notConditional => "only gates and calls can carry a condition"
  | .undeclared kind bit => kind.name ++ s!" {bit} is not declared"
  | .beyondLive kind bit dense live =>
    kind.name ++ s!" {bit} maps to index {dense} beyond the {live} live " ++ kind.name ++ "s"
  | .measureMismatch name qubits clbits =>
    "'" ++ name ++ s!"' measures {qubits} qubit(s) into {clbits} clbit(s)"

inductive GraphError where
  | access (vertex : Nat) (fault : AccessFault)
  | invalidVertex (id : Nat)
  | malformedRegister (name : String)
  | cyclic
  | expression (src : String) (fault : Expr.Fault)
  | parameters (name : String) (fault : ParameterFault)
  | unknownComparator (symbol : String)
  | unknownBit (leaf : Leaf) (gate : Option String)
  | document
  deriving Repr

def GraphError.message : GraphError → String
  | .access vertex fault => s!"Graph access failed at vertex {vertex}: " ++ fault.message
  | .invalidVertex id => s!"Vertex {id} does not exist"
  | .malformedRegister name => "Malformed register name '" ++ name ++ "'"
  | .cyclic => "Circuit graph is not acyclic"
  | .expression src fault => "Invalid parameter expression '" ++ src ++ "': " ++ fault.message
  | .parameters name fault => "Cannot resolve parameters of '" ++ name ++ "': " ++ fault.message
  | .unknownComparator symbol => "Unknown comparator '" ++ symbol ++ "'"
  | .unknownBit leaf gate =>
    "Unknown " ++ leaf.text ++ ((gate.map fun g => " (gate: " ++ g ++ ")").getD "")
  | .document => "Invalid graph document:"

end QCircuit
