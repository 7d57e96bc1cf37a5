import QCircuit.Angle
import QCircuit.Compile.Numbering
import QCircuit.Graph.Body
import QCircuit.Schedule

/-!
Calls replaced by the bodies they call.

A body runs on the qubits of the call, with parameters computed from those of the call. A
condition on the call takes the place of all conditions inside. A name that is being expanded
cannot be called again, so expansion ends.
-/

namespace QCircuit

/-- Schedules a gate; on a single qubit its first parameter is its angle. -/
def Schedule.placeNamed (s : Schedule) (name : String) (qubits : List Nat) (params : List Float)
    (condition : Option Condition) : Except CompileError (Schedule × Nat) :=
  let angle := if qubits.length = 1 then params.head?.map Angle.toDegrees else none
  s.place { kind := .ofName name, qubits, angle, condition }

/-- What a call hands to the body. -/
structure CallContext where
  qubits : List Nat
  params : List Float
  condition : Option Condition
  deriving Repr

namespace CallContext

/-- The qubits of the call behind the slots that `op` uses. -/
def qubitsFor (c : CallContext) (v : Nat) (op : Operation) : Except CompileError (List Nat) :=
  op.qubits.mapM fun slot =>
    match c.qubits[slot]? with
    | some q => .ok q
    | none => .error (.expansion v op.name (.slot slot c.qubits.length))

/-- What the operation at `v` in the body is handed. -/
def inner (c : CallContext) (g : Graph) (n : Numbering) (v : Nat) (op : Operation) :
    Except CompileError CallContext := do
  let qubits ← c.qubitsFor v op
  let params ← (op.resolve c.params).mapError fun e => .expansion v op.name (.parameters op.name e)
  let condition ← match c.condition with
    | some cond => .ok (some cond)
    | none => n.condition g v op
  return ⟨qubits, params, condition⟩

end CallContext

/-- Schedules a gate of a body. -/
def Schedule.placeInBody (s : Schedule) (n : Numbering) (v : Nat) (op : Operation)
    (c : CallContext) : Except CompileError (Schedule × Nat) :=
  if (Gate.Kind.ofName op.name).isMeasure then .error (.expansion v op.name .measurement)
  else do
    let qubits ← c.qubits.mapM (n.dense .qubit v)
    s.placeNamed op.name qubits c.params c.condition

mutual

/-- Expands the call of `name` at `site`; only the `idle` names may be opened. The greatest slot
of its gates comes with the schedule. -/
def expandCall (g : Graph) (n : Numbering) (idle : List String) (site : Nat) (name : String)
    (c : CallContext) (s : Schedule) : Except CompileError (Schedule × Nat) :=
  match g.findDefinition? name with
  | none => .error (.expansion site name .undefined)
  | some root =>
    if h : name ∈ idle then
      have : (idle.erase name).length < idle.length := by
        rw [List.length_erase_of_mem h]
        have := List.length_pos_of_mem h
        omega
      expandBody g n (idle.erase name) c (g.bodyFrom root) s 0
    else .error (.expansion site name .recursive)
termination_by (idle.length, 0)

/-- Expands the vertices of a body; `top` is the greatest slot so far. -/
def expandBody (g : Graph) (n : Numbering) (idle : List String) (c : CallContext) (vs : List Nat)
    (s : Schedule) (top : Nat) : Except CompileError (Schedule × Nat) :=
  match vs with
  | [] => .ok (s, top)
  | v :: vs =>
    match g.vertex? v with
    | some (.callee op) => do
      let (s, slot) ← s.placeInBody n v op (← c.inner g n v op)
      expandBody g n idle c vs s (max top slot)
    | some (.caller op) => do
      let (s, slot) ← expandCall g n idle v op.name (← c.inner g n v op) s
      expandBody g n idle c vs s (max top slot)
    | _ => expandBody g n idle c vs s top
termination_by (idle.length, vs.length + 1)

end

end QCircuit
