import QCircuit.Condition
import QCircuit.Expr.Parser
import QCircuit.Expr.Json

/-!
Operations: what a vertex of a circuit graph does.

Inside a definition the parameters are expressions over those of the call. An index list says
which of the caller's parameters each expression takes: as many entries as its arity, or a single
`-1` for all of them.
-/

namespace QCircuit

open Json (Value)

structure Operation where
  name : String
  /-- Global ids, or inside a definition the slots of the call. -/
  qubits : List Nat
  params : List Expr := []
  pindex : List Int := []
  comparison : Option (Relation × Int) := none
  deriving BEq, Repr

/-- Why a parameter has no value. -/
inductive ParameterFault where
  | exhausted (i arity : Nat)
  | outside (index : Int) (count : Nat)
  | undefined (i : Nat) (e : Expr)
  deriving Repr

def ParameterFault.message : ParameterFault → String
  | .exhausted i arity =>
    s!"parameter {i} needs {arity} argument(s) but the index list is exhausted"
  | .outside index count => s!"index {index} is outside the {count} caller parameter(s)"
  | .undefined i e => s!"parameter {i} (" ++ e.text ++ ") could not be evaluated"

namespace Operation

/-- The caller's parameter with this index. -/
def select? (caller : List Float) (index : Int) : Option Float :=
  if index < 0 then none else caller[index.toNat]?

/-- The arguments that the next `n` entries of the index list select, and the entries left.
Parameter `i` needs `arity` of them. -/
def arguments (caller : List Float) (i arity : Nat) :
    (n : Nat) → List Int → Except ParameterFault (List Float × List Int)
  | 0, rest => .ok ([], rest)
  | _ + 1, [] => .error (.exhausted i arity)
  | n + 1, k :: rest =>
    match select? caller k with
    | none => .error (.outside k caller.length)
    | some x => do
      let (xs, left) ← arguments caller i arity n rest
      return (x :: xs, left)

/-- The value of one expression, and the index entries that it leaves. -/
def next (caller : List Float) (i : Nat) (index : List Int) (e : Expr) :
    Except ParameterFault (Option Float × List Int) :=
  if e.arity = 0 then .ok (e.evaluate [], index)
  else match index with
    | -1 :: rest => .ok (e.evaluate caller, rest)
    | _ => do
      let (args, rest) ← arguments caller i e.arity e.arity index
      return (e.evaluate args, rest)

/-- The values of the expressions from number `i` on. -/
def resolveFrom (caller : List Float) (i : Nat) (index : List Int) :
    List Expr → Except ParameterFault (List Float)
  | [] => .ok []
  | e :: es => do
    let (value, rest) ← next caller i index e
    match value with
    | none => .error (.undefined i e)
    | some x => return x :: (← resolveFrom caller (i + 1) rest es)

/-- The parameters of an operation under those of the enclosing call. -/
def resolve (op : Operation) (caller : List Float) : Except ParameterFault (List Float) :=
  resolveFrom caller 0 op.pindex op.params

def toJson (op : Operation) : Value :=
  Value.record ([("name", Value.text op.name), ("qubits", Value.list Value.nat op.qubits),
    ("params", Value.list Expr.toJson op.params), ("pindex", Value.list Value.int op.pindex)] ++
    (op.comparison.map fun (r, n) => ("comparison", .arr [r.toJson, Value.int n])).toList)

def comparison? : Value → Option (Relation × Int)
  | .arr [r, n] => do return (← Relation.ofJson? r, ← n.int64?)
  | _ => none

/-- Arrays and objects that may be open at once in a document. -/
def maxDepth : Nat := 127

/-- The operation and its list of parameters are two levels of the document. -/
def ofJson? (v : Value) : Option Operation := do
  let [name, qubits, params, pindex, comparison] ←
    v.fields? ["name", "qubits", "params", "pindex", "comparison"] | none
  return {
    name := ← (← name).text?
    qubits := ← (← qubits).list? Value.word32?
    params := ← (params.getD (.arr [])).list? (Expr.ofJson? (maxDepth - 2))
    pindex := ← (pindex.getD (.arr [])).list? Value.int64?
    comparison := ← (comparison.getD .null).nullable? comparison? }

end Operation
end QCircuit
