import QCircuit.Compile
import QCircuit.Proofs.Schedule.Runs

/-!
What a vertex asks of the scheduler.

Translating a vertex means making calls that do not depend on the schedule: first the calls are
found, then they are made. The circuit of a list of vertices is the schedule of all their calls.
-/

namespace QCircuit

/-- A gate with its parameters; on a single qubit the first one is its angle. -/
def Gate.named (name : String) (qubits : List Nat) (params : List Float)
    (condition : Option Condition) : Gate :=
  { kind := .ofName name
    qubits
    angle := if qubits.length = 1 then params.head?.map Angle.toDegrees else none
    condition }

/-- The call that a gate of a body makes. -/
def CallContext.gateCall (c : CallContext) (n : Numbering) (v : Nat) (op : Operation) :
    Except CompileError (List Schedule.Call) :=
  if (Gate.Kind.ofName op.name).isMeasure then .error (.expansion v op.name .measurement)
  else do
    return [.unitary (.named op.name (← c.qubits.mapM (n.dense .qubit v)) c.params c.condition)]

/-- The calls of a vertex of a body, where `call` opens other bodies. -/
def partTrace (g : Graph) (n : Numbering)
    (call : Nat → String → CallContext → Except CompileError (List Schedule.Call)) (c : CallContext)
    (v : Nat) : Except CompileError (List Schedule.Call) :=
  match g.vertex? v with
  | some (.callee op) => do (← c.inner g n v op).gateCall n v op
  | some (.caller op) => do call v op.name (← c.inner g n v op)
  | _ => .ok []

/-- The calls that expand the call of `name` at `site`. -/
def callTrace (g : Graph) (n : Numbering) (idle : List String) (site : Nat) (name : String)
    (c : CallContext) : Except CompileError (List Schedule.Call) :=
  match g.findDefinition? name with
  | none => .error (.expansion site name .undefined)
  | some root =>
    if h : name ∈ idle then
      have : (idle.erase name).length < idle.length := by
        have := List.length_pos_of_mem h
        rw [List.length_erase_of_mem h]
        omega
      do return (← (g.bodyFrom root).mapM
        (partTrace g n (callTrace g n (idle.erase name)) c)).flatten
    else .error (.expansion site name .recursive)
termination_by idle.length

section Traces

variable {α : Type} {s s' : Schedule}

/-- First what does not depend on the schedule, then the calls. -/
lemma bind_trace {x : Except CompileError α} {f : α → Except CompileError Schedule}
    {trace : α → Except CompileError (List Schedule.Call)}
    (h : ∀ a, f a = .ok s' ↔ ∃ cs, trace a = .ok cs ∧ s.performAll cs = .ok s') :
    (x >>= f) = .ok s' ↔ ∃ cs, (x >>= trace) = .ok cs ∧ s.performAll cs = .ok s' := by
  simp only [bind_eq_ok, h]
  constructor
  · rintro ⟨a, ha, cs, hcs, hs⟩
    exact ⟨cs, ⟨a, ha, hcs⟩, hs⟩
  · rintro ⟨cs, ⟨a, ha, hcs⟩, hs⟩
    exact ⟨a, ha, cs, hcs, hs⟩

lemma bind_fst_ok {x : Except CompileError (Schedule × Nat)} :
    (x >>= fun placed => pure placed.1) = .ok s' ↔ ∃ slot, x = .ok (s', slot) := by
  simp only [bind_eq_ok, Prod.exists, pure, Except.pure, Except.ok.injEq]
  constructor
  · rintro ⟨_, slot, hx, rfl⟩
    exact ⟨slot, hx⟩
  · rintro ⟨slot, hx⟩
    exact ⟨s', slot, hx, rfl⟩

/-- The same, where the slot of the calls is given back too. -/
lemma bind_trace_slot {x : Except CompileError α} {f : α → Except CompileError (Schedule × Nat)}
    {trace : α → Except CompileError (List Schedule.Call)}
    (h : ∀ a, (∃ slot, f a = .ok (s', slot)) ↔
      ∃ cs, trace a = .ok cs ∧ s.performAll cs = .ok s') :
    (∃ slot, (x >>= f) = .ok (s', slot)) ↔
      ∃ cs, (x >>= trace) = .ok cs ∧ s.performAll cs = .ok s' := by
  rw [← bind_fst_ok, bind_assoc]
  refine bind_trace fun a => ?_
  rw [bind_fst_ok, h]

/-- A single call. -/
lemma perform_trace (call : Schedule.Call) : (∃ slot, s.perform call = .ok (s', slot)) ↔
    ∃ cs, (pure [call] : Except CompileError (List Schedule.Call)) = .ok cs ∧
      s.performAll cs = .ok s' := by
  simp [pure, Except.pure, Schedule.performAll_cons_ok]

/-- The calls of the first of several, then those of the others. -/
lemma mapM_cons_trace {f : α → Except CompileError (List Schedule.Call)} {a : α} {as : List α} :
    (∃ css, (a :: as).mapM f = .ok css ∧ s.performAll css.flatten = .ok s') ↔
      ∃ s₁, (∃ cs, f a = .ok cs ∧ s.performAll cs = .ok s₁) ∧
        ∃ css, as.mapM f = .ok css ∧ s₁.performAll css.flatten = .ok s' := by
  simp only [List.mapM_cons, bind_eq_ok, pure, Except.pure, Except.ok.injEq]
  constructor
  · rintro ⟨_, ⟨cs, hcs, css, hcss, rfl⟩, hs⟩
    obtain ⟨s₁, hs₁, hs'⟩ := Schedule.performAll_append_ok.mp hs
    exact ⟨s₁, ⟨cs, hcs, hs₁⟩, css, hcss, hs'⟩
  · rintro ⟨s₁, ⟨cs, hcs, hs₁⟩, css, hcss, hs'⟩
    exact ⟨_, ⟨cs, hcs, css, hcss, rfl⟩, Schedule.performAll_append_ok.mpr ⟨s₁, hs₁, hs'⟩⟩

end Traces

/-- Induction on the names that may be called: a call takes its own name out of them. -/
@[elab_as_elim]
theorem idle_induct {P : List String → Prop}
    (call : ∀ idle, (∀ name ∈ idle, P (idle.erase name)) → P idle) (idle : List String) :
    P idle := by
  induction hk : idle.length using Nat.strongRecOn generalizing idle with
  | ind k ih =>
    refine call idle fun name hname => ih _ ?_ _ rfl
    have := List.length_pos_of_mem hname
    rw [List.length_erase_of_mem hname]
    omega

section Expansion

variable {g : Graph} {n : Numbering} {idle : List String} {site v : Nat} {name : String}
  {c : CallContext} {s s' : Schedule}

lemma callTrace_ok {cs : List Schedule.Call} : callTrace g n idle site name c = .ok cs ↔
    ∃ root css, g.findDefinition? name = some root ∧ name ∈ idle ∧ (g.bodyFrom root).mapM
      (partTrace g n (callTrace g n (idle.erase name)) c) = .ok css ∧ cs = css.flatten := by
  rw [callTrace]
  cases g.findDefinition? name with
  | none => simp
  | some root =>
    by_cases hidle : name ∈ idle
    · simp only [hidle, dite_true, bind_eq_ok, pure, Except.pure, Except.ok.injEq,
        Option.some.injEq, true_and]
      constructor
      · rintro ⟨css, hcss, h⟩
        exact ⟨root, css, rfl, hcss, h.symm⟩
      · rintro ⟨_, css, rfl, hcss, h⟩
        exact ⟨css, hcss, h.symm⟩
    · simp [hidle]

lemma placeInBody_ok {op : Operation} :
    (∃ slot, s.placeInBody n v op c = .ok (s', slot)) ↔
      ∃ cs, c.gateCall n v op = .ok cs ∧ s.performAll cs = .ok s' := by
  unfold Schedule.placeInBody CallContext.gateCall
  split
  · simp
  · exact bind_trace_slot fun qubits =>
      perform_trace (.unitary (.named op.name qubits c.params c.condition))

/-- Expanding a body makes the calls of its vertices, if the same holds of the bodies it opens. -/
lemma expandBody_ok {vs : List Nat} {top : Nat}
    (hcall : ∀ site name c s s', (∃ top, expandCall g n idle site name c s = .ok (s', top)) ↔
      ∃ cs, callTrace g n idle site name c = .ok cs ∧ s.performAll cs = .ok s') :
    (∃ t, expandBody g n idle c vs s top = .ok (s', t)) ↔
      ∃ css, vs.mapM (partTrace g n (callTrace g n idle) c) = .ok css ∧
        s.performAll css.flatten = .ok s' := by
  induction vs generalizing s top with
  | nil =>
    rw [expandBody]
    simp [pure, Except.pure]
  | cons v vs ih =>
    -- one vertex, then the rest of the body
    have hstep : ∀ first : Except CompileError (Schedule × Nat),
        (∀ s₁, (∃ slot, first = .ok (s₁, slot)) ↔
          ∃ cs, partTrace g n (callTrace g n idle) c v = .ok cs ∧ s.performAll cs = .ok s₁) →
        ((∃ t, (first >>= fun p => expandBody g n idle c vs p.1 (max top p.2)) = .ok (s', t)) ↔
          ∃ css, (v :: vs).mapM (partTrace g n (callTrace g n idle) c) = .ok css ∧
            s.performAll css.flatten = .ok s') := by
      intro first hfirst
      rw [mapM_cons_trace]
      simp only [bind_eq_ok, Prod.exists]
      constructor
      · rintro ⟨t, s₁, slot, h₁, h₂⟩
        exact ⟨s₁, (hfirst s₁).mp ⟨slot, h₁⟩, ih.mp ⟨t, h₂⟩⟩
      · rintro ⟨s₁, hs₁, hs'⟩
        obtain ⟨slot, h₁⟩ := (hfirst s₁).mpr hs₁
        obtain ⟨t, h₂⟩ := ih.mpr hs'
        exact ⟨t, s₁, slot, h₁, h₂⟩
    rw [expandBody]
    split
    · next op hv =>
      have hfirst := hstep (c.inner g n v op >>= s.placeInBody n v op) fun s₁ => by
        simp only [partTrace, hv]
        exact bind_trace_slot fun c' => placeInBody_ok
      rw [← hfirst, bind_assoc]
    · next op hv =>
      have hfirst := hstep (c.inner g n v op >>= fun c' => expandCall g n idle v op.name c' s)
        fun s₁ => by
          simp only [partTrace, hv]
          exact bind_trace_slot fun c' => hcall v op.name c' s s₁
      rw [← hfirst, bind_assoc]
    · next hcallee hcaller =>
      have hnil : partTrace g n (callTrace g n idle) c v = .ok [] := by
        unfold partTrace
        split
        · next op hv => exact absurd hv (hcallee op)
        · next op hv => exact absurd hv (hcaller op)
        · rfl
      rw [ih, mapM_cons_trace]
      simp [hnil]

/-- **Expanding a call makes the calls of its trace.** -/
theorem expandCall_ok : (∃ top, expandCall g n idle site name c s = .ok (s', top)) ↔
    ∃ cs, callTrace g n idle site name c = .ok cs ∧ s.performAll cs = .ok s' := by
  induction idle using idle_induct generalizing site name c s s' with
  | call idle ih =>
    simp only [callTrace_ok]
    rw [expandCall]
    cases g.findDefinition? name with
    | none => simp
    | some root =>
      by_cases hidle : name ∈ idle
      · have hbody : (∃ t, expandBody g n (idle.erase name) c (g.bodyFrom root) s 0 = .ok (s', t)) ↔
            ∃ css, (g.bodyFrom root).mapM
              (partTrace g n (callTrace g n (idle.erase name)) c) = .ok css ∧
                s.performAll css.flatten = .ok s' :=
          expandBody_ok fun site name c s s' => ih _ hidle
        simp only [hidle, dite_true, hbody, true_and]
        constructor
        · rintro ⟨css, hcss, hs⟩
          exact ⟨_, ⟨root, css, rfl, hcss, rfl⟩, hs⟩
        · rintro ⟨_, ⟨root', css, hroot, hcss, rfl⟩, hs⟩
          obtain rfl := Option.some.inj hroot
          exact ⟨css, hcss, hs⟩
      · simp [hidle]

end Expansion

/-! ### Vertices outside of bodies -/

namespace Graph

/-- The call that a measurement makes. -/
def measureTrace (g : Graph) (n : Numbering) (v : Nat) (op : Operation) (qubits : List Nat)
    (condition : Option Condition) : Except CompileError (List Schedule.Call) := do
  let clbits ← (g.incidentBits v .clbit).mapError .graph
  if clbits.length = qubits.length then
    return [.measurement (qubits.zip (← clbits.mapM (n.dense .clbit v))) condition]
  else
    .error (.graph (.access v (.measureMismatch op.name qubits.length clbits.length)))

/-- The calls of a vertex. -/
def trace (g : Graph) (n : Numbering) (v : Nat) : Except CompileError (List Schedule.Call) := do
  match ← (g.vertex v).mapError .graph with
  | .op op =>
    let condition ← n.condition g v op
    let qubits ← op.qubits.mapM (n.dense .qubit v)
    if (Gate.Kind.ofName op.name).isMeasure then g.measureTrace n v op qubits condition
    else return [.unitary (.named op.name qubits (← topParams op) condition)]
  | .caller op =>
    let condition ← n.condition g v op
    callTrace g n g.definedNames v op.name ⟨op.qubits, ← topParams op, condition⟩
  | _ => return []

variable {g : Graph} {n : Numbering} {v : Nat} {s s' : Schedule}

lemma placeMeasurement_ok {op : Operation} {qubits : List Nat} {condition : Option Condition} :
    (∃ slot, s.placeMeasurement g n v op qubits condition = .ok (s', slot)) ↔
      ∃ cs, g.measureTrace n v op qubits condition = .ok cs ∧ s.performAll cs = .ok s' := by
  unfold Schedule.placeMeasurement measureTrace
  refine bind_trace_slot fun clbits => ?_
  split
  · exact bind_trace_slot fun targets =>
      perform_trace (.measurement (qubits.zip targets) condition)
  · simp

lemma measureTrace_ok {op : Operation} {qubits : List Nat} {condition : Option Condition}
    {cs : List Schedule.Call} (h : g.measureTrace n v op qubits condition = .ok cs) :
    ∃ clbits targets, g.incidentBits v .clbit = .ok clbits ∧
      clbits.mapM (n.dense .clbit v) = .ok targets ∧ targets.length = qubits.length ∧
        cs = [.measurement (qubits.zip targets) condition] := by
  obtain ⟨clbits, hclbits, h⟩ := bind_eq_ok.mp h
  rw [mapError_eq_ok] at hclbits
  split at h
  · next hlen =>
    obtain ⟨targets, htargets, hcs⟩ := bind_eq_ok.mp h
    refine ⟨clbits, targets, hclbits, htargets, ?_, (Except.ok.inj hcs).symm⟩
    rw [← (mapM_eq_ok_iff.mp htargets).length_eq, hlen]
  · simp at h

/-- **Translating a vertex makes the calls of its trace.** -/
theorem translate_ok : g.translate n s v = .ok s' ↔
    ∃ cs, g.trace n v = .ok cs ∧ s.performAll cs = .ok s' := by
  refine bind_trace fun vertex => ?_
  cases vertex with
  | op op =>
    refine bind_trace fun condition => bind_trace fun qubits => ?_
    simp only
    split
    · rw [bind_fst_ok, placeMeasurement_ok]
    · refine bind_trace fun params => ?_
      rw [bind_fst_ok]
      exact perform_trace (.unitary (.named op.name qubits params condition))
  | caller op =>
    refine bind_trace fun condition => bind_trace fun params => ?_
    rw [bind_fst_ok, expandCall_ok]
  | _ => simp [pure, Except.pure]

lemma foldlM_translate_ok {vs : List Nat} : vs.foldlM (g.translate n) s = .ok s' ↔
    ∃ css, vs.mapM (g.trace n) = .ok css ∧ s.performAll css.flatten = .ok s' := by
  induction vs generalizing s with
  | nil => simp [pure, Except.pure]
  | cons v vs ih =>
    rw [mapM_cons_trace]
    simp only [List.foldlM_cons, bind_eq_ok, translate_ok, ih]

/-- **The circuit of a list of vertices is the schedule of their calls.** -/
theorem compileVertices_ok {vs : List Nat} {c : Circuit} : g.compileVertices vs = .ok c ↔
    ∃ n css s, Numbering.ofVertices g vs = .ok n ∧ vs.mapM (g.trace n) = .ok css ∧
      (Schedule.empty n.liveQubits).performAll css.flatten = .ok s ∧
        s.flatten n.liveClbits = .ok c := by
  unfold compileVertices
  simp only [bind_eq_ok, foldlM_translate_ok]
  constructor
  · rintro ⟨n, hn, s, ⟨css, hcss, hs⟩, hc⟩
    exact ⟨n, css, s, hn, hcss, hs, hc⟩
  · rintro ⟨n, css, s, hn, hcss, hs, hc⟩
    exact ⟨n, hn, s, ⟨css, hcss, hs⟩, hc⟩

end Graph

end QCircuit
