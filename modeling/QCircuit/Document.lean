import QCircuit.Graph.Builder
import QCircuit.Json.Writer

/-!
Graph documents: builder calls as JSON.
-/

namespace QCircuit

open Json (Value)

namespace Document

/-- A condition on a call, its comparator still a text. -/
structure Guard where
  clbits : List Nat
  cmp : String
  value : Int
  deriving DecidableEq, Repr

/-- A gate or a call on global bits. -/
structure Invocation where
  name : String
  params : List Float
  qubits : List Nat
  clbits : List Nat
  condition : Option Guard
  deriving Repr

/-- The head of a definition: its name and how many parameters and bits it takes. -/
structure Head where
  name : String
  params : Nat
  qubits : Nat
  clbits : Nat
  deriving DecidableEq, Repr

/-- A gate or a call inside a definition, its parameters still texts. -/
structure Part where
  name : String
  params : List String
  qubits : List Nat
  clbits : List Nat
  pindex : List Int
  caller : Bool
  condition : Option Guard
  deriving DecidableEq, Repr

inductive Statement where
  | register (r : Register)
  | op (i : Invocation)
  | caller (i : Invocation)
  | define (h : Head)
  | callee (p : Part)
  deriving Repr

/-! ### JSON form -/

def bitKindToJson (k : BitKind) : Value := Value.text k.name

def bitKindOfJson? (v : Value) : Option BitKind := do
  let (k, .null) ← v.variant? | none
  [BitKind.qubit, .clbit].find? (·.name = k)

def registerToJson (r : Register) : Value :=
  Value.record [("kind", bitKindToJson r.kind), ("start", Value.nat r.start),
    ("count", Value.nat r.count)]

def registerOfJson? (v : Value) : Option Register := do
  let [kind, start, count] ← v.fields? ["kind", "start", "count"] | none
  return ⟨← bitKindOfJson? (← kind), ← (← start).word32?, ← (← count).word32?⟩

def Guard.toJson (g : Guard) : Value :=
  Value.record [("clbits", Value.list Value.nat g.clbits), ("cmp", Value.text g.cmp),
    ("value", Value.int g.value)]

def Guard.ofJson? (v : Value) : Option Guard := do
  let [clbits, cmp, value] ← v.fields? ["clbits", "cmp", "value"] | none
  return ⟨← (← clbits).list? Value.word32?, ← (← cmp).text?, ← (← value).int64?⟩

/-- A condition is written only where there is one. -/
def guardField (g : Option Guard) : List (String × Value) :=
  (g.map fun g => ("condition", g.toJson)).toList

def guardOfField? (v : Option Value) : Option (Option Guard) :=
  (v.getD .null).nullable? Guard.ofJson?

def Invocation.toJson (i : Invocation) : Value :=
  Value.record ([("name", Value.text i.name), ("params", Value.list Value.float i.params),
    ("qubits", Value.list Value.nat i.qubits), ("clbits", Value.list Value.nat i.clbits)] ++
    guardField i.condition)

def Invocation.ofJson? (v : Value) : Option Invocation := do
  let [name, params, qubits, clbits, condition] ←
    v.fields? ["name", "params", "qubits", "clbits", "condition"] | none
  return ⟨← (← name).text?, ← (params.getD (.arr [])).list? Value.float?,
    ← (← qubits).list? Value.word32?, ← (clbits.getD (.arr [])).list? Value.word32?,
    ← guardOfField? condition⟩

def Head.toJson (h : Head) : Value :=
  Value.record [("name", Value.text h.name), ("params", Value.nat h.params),
    ("qubits", Value.nat h.qubits), ("clbits", Value.nat h.clbits)]

def Head.ofJson? (v : Value) : Option Head := do
  let [name, params, qubits, clbits] ← v.fields? ["name", "params", "qubits", "clbits"] | none
  return ⟨← (← name).text?, ← (params.getD (Value.nat 0)).word64?, ← (← qubits).word64?,
    ← (clbits.getD (Value.nat 0)).word64?⟩

def Part.toJson (p : Part) : Value :=
  Value.record ([("name", Value.text p.name), ("params", Value.list Value.text p.params),
    ("qubits", Value.list Value.nat p.qubits), ("clbits", Value.list Value.nat p.clbits),
    ("pindex", Value.list Value.int p.pindex), ("caller", .bool p.caller)] ++
    guardField p.condition)

def Part.ofJson? (v : Value) : Option Part := do
  let [name, params, qubits, clbits, pindex, caller, condition] ←
    v.fields? ["name", "params", "qubits", "clbits", "pindex", "caller", "condition"] | none
  return ⟨← (← name).text?, ← (params.getD (.arr [])).list? Value.text?,
    ← (← qubits).list? Value.word32?, ← (clbits.getD (.arr [])).list? Value.word32?,
    ← (pindex.getD (.arr [])).list? Value.int64?, ← (caller.getD (.bool false)).bool?,
    ← guardOfField? condition⟩

def Statement.toJson : Statement → Value
  | .register r => Value.record [("register", registerToJson r)]
  | .op i => Value.record [("op", i.toJson)]
  | .caller i => Value.record [("caller", i.toJson)]
  | .define h => Value.record [("def", h.toJson)]
  | .callee p => Value.record [("callee", p.toJson)]

def Statement.ofJson? (v : Value) : Option Statement := do
  let (k, v) ← v.variant?
  match k with
  | "register" => (registerOfJson? v).map .register
  | "op" => (Invocation.ofJson? v).map .op
  | "caller" => (Invocation.ofJson? v).map .caller
  | "def" => (Head.ofJson? v).map .define
  | "callee" => (Part.ofJson? v).map .callee
  | _ => none

end Document

structure Document where
  statements : List Document.Statement
  deriving Repr

namespace Document

def toJson (d : Document) : Value :=
  Value.record [("statements", Value.list Statement.toJson d.statements)]

def ofJson? (v : Value) : Option Document := do
  let [statements] ← v.fields? ["statements"] | none
  return ⟨← (← statements).list? Statement.ofJson?⟩

/-- The text of a document, on one line. -/
def text (d : Document) : String := d.toJson.compact

def parse (s : String) : Except GraphError Document :=
  match (Json.parse? s).bind ofJson? with
  | some d => .ok d
  | none => .error .document

/-! ### Building -/

def relation (symbol : String) : Except GraphError Relation :=
  match Relation.ofSymbol? symbol with
  | some r => .ok r
  | none => .error (.unknownComparator (Text.trim symbol))

def expression (src : String) : Except GraphError Expr :=
  (Expr.parse src).mapError (.expression src)

/-- Puts the condition of a statement on its vertex. -/
def guarded (condition : Option Guard) : Graph × Nat → Except GraphError Graph
  | (g, v) =>
    match condition with
    | none => .ok g
    | some c => do
      let r ← relation c.cmp
      match g.addCondition v c.clbits r c.value with
      | (g', .ok ()) => .ok g'
      | (_, .error e) => .error e

def Statement.apply (g : Graph) : Statement → Except GraphError Graph
  | .register r => .ok (g.addRegister r).1
  | .op i => do guarded i.condition (← g.addOp i.name i.params i.qubits i.clbits)
  | .caller i => do guarded i.condition (← g.addCaller i.name i.params i.qubits i.clbits)
  | .define h => .ok (g.addDefinition h.name h.params h.qubits h.clbits).1
  | .callee p => do
    let params ← p.params.mapM expression
    guarded p.condition (← g.addCallee p.name params p.qubits p.clbits p.pindex p.caller)

/-- The graph that the statements build, in order. -/
def build (d : Document) : Except GraphError Graph := d.statements.foldlM Statement.apply .empty

end Document
end QCircuit
