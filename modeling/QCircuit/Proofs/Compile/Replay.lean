import QCircuit.Proofs.Compile.Operands

/-!
The program that a document writes down.

Replaying a document runs its gates and calls in order. A call is replaced by the parts of the
first definition of its name, in their order, on the qubits and with the parameters of the call,
and the condition of the call takes the place of those inside. Expanding a call in the graph gives
the same gates, on every qubit in the same order.
-/

namespace QCircuit

open QCircuit.Graph

namespace Document

/-- The condition of a statement, on dense bits. -/
def condition? (ix : BitKind → Nat → Option Nat) : Option Guard → Option (Option Condition)
  | none => some none
  | some c => do
    return some ⟨← c.clbits.mapM (ix .clbit), ← Relation.ofSymbol? c.cmp, c.value⟩

/-- What a part is handed by a call. -/
def Part.context? (ix : BitKind → Nat → Option Nat) (c : CallContext) (p : Part) :
    Option CallContext := do
  let qubits ← p.qubits.mapM fun slot => c.qubits[slot]?
  let exprs ← (p.params.mapM expression).toOption
  let params ← (Operation.resolveFrom c.params 0 p.pindex exprs).toOption
  let condition ← if c.condition.isSome then some c.condition else condition? ix p.condition
  return ⟨qubits, params, condition⟩

/-- The gates of a part, where `call` replays other definitions. -/
def Part.replay? (ix : BitKind → Nat → Option Nat)
    (call : String → CallContext → Option (List Gate)) (c : CallContext) (p : Part) :
    Option (List Gate) := do
  let inner ← p.context? ix c
  if p.caller then call p.name inner
  else if (Gate.Kind.ofName p.name).isMeasure then none
  else return [.named p.name (← inner.qubits.mapM (ix .qubit)) inner.params inner.condition]

/-- The gates of a call of `name`; only the `idle` names may be called inside. -/
def replayCall? (sts : List Statement) (ix : BitKind → Nat → Option Nat) (idle : List String)
    (name : String) (c : CallContext) : Option (List Gate) :=
  match bodyOf? name sts with
  | none => none
  | some parts =>
    if h : name ∈ idle then
      have : (idle.erase name).length < idle.length := by
        have := List.length_pos_of_mem h
        rw [List.length_erase_of_mem h]
        omega
      do return (← parts.mapM (Part.replay? ix (replayCall? sts ix (idle.erase name)) c)).flatten
    else none
termination_by idle.length

def Statement.definedName? : Statement → Option String
  | .define d => some d.name
  | _ => none

/-- The names that are defined, each once. -/
def definedNames (sts : List Statement) : List String :=
  (sts.filterMap Statement.definedName?).eraseDups

/-- The gates of a statement; a measurement of many qubits is one of each. -/
def Statement.replay? (sts : List Statement) (ix : BitKind → Nat → Option Nat) :
    Statement → Option (List Gate)
  | .op i => do
    let condition ← condition? ix i.condition
    let qubits ← i.qubits.mapM (ix .qubit)
    if (Gate.Kind.ofName i.name).isMeasure then
      let clbits ← i.clbits.mapM (ix .clbit)
      if clbits.length = qubits.length then
        return (qubits.zip clbits).map fun p => .measure p.1 p.2 condition
      else none
    else return [.named i.name qubits i.params condition]
  | .caller i => do
    replayCall? sts ix (definedNames sts) i.name ⟨i.qubits, i.params, ← condition? ix i.condition⟩
  | _ => some []

/-- **The program of a document**, on dense bits. -/
def replay? (d : Document) (ix : BitKind → Nat → Option Nat) : Option (List Gate) := do
  return (← d.statements.mapM (Statement.replay? d.statements ix)).flatten

end Document

/-! ### Agreement of programs -/

lemma Agree.filter {xs ys : List Gate} (h : Agree xs ys) (P : Gate → Bool) :
    Agree (xs.filter P) (ys.filter P) := by
  refine ⟨h.perm.filter P, fun q => ?_⟩
  rw [List.filter_comm, h.onQubit, List.filter_comm]

/-- Two orders of sites give the same program, if they are the same for the users of each qubit. -/
lemma agree_flatMap {vs ws : List Nat} {F : Nat → List Gate} (uses : Nat → Nat → Bool)
    (hperm : vs.Perm ws) (horder : ∀ q, vs.filter (uses · q) = ws.filter (uses · q))
    (hF : ∀ v ∈ vs, ∀ k ∈ F v, ∀ q ∈ k.qubits, uses v q) :
    Agree (vs.flatMap F) (ws.flatMap F) := by
  refine ⟨hperm.flatMap_right F, fun q => ?_⟩
  have honly : ∀ us : List Nat, (∀ v ∈ us, v ∈ vs) → (us.flatMap F).filter (·.names q) =
      ((us.filter (uses · q)).flatMap F).filter (·.names q) := by
    intro us hus
    induction us with
    | nil => rfl
    | cons v us ih =>
      have ih := ih fun w hw => hus w (List.mem_cons_of_mem _ hw)
      rw [List.flatMap_cons, List.filter_append, ih, List.filter_cons]
      split
      · rw [List.flatMap_cons, List.filter_append]
      · next hnot =>
        rw [List.filter_eq_nil_iff.mpr, List.nil_append]
        intro k hk hn
        exact hnot (hF v (hus v List.mem_cons_self) k hk q (by simpa [Gate.names] using hn))
  rw [honly vs fun v hv => hv, honly ws fun v hv => hperm.mem_iff.mpr hv, horder q]

/-! ### Conditions and parameters -/

/-- A graph without loops that a document builds, all its gates and calls on qubits. -/
structure Document.Origin (sts : List Document.Statement) (g : Graph) : Prop where
  built : sts.foldlM Document.Statement.apply .empty = .ok g
  words : g.size ≤ 4294967296
  qubits : Document.HasQubits sts
  loopless : g.Loopless

section Conditions

variable {g : Graph} {n : Numbering} {ix : BitKind → Nat → Option Nat} (hn : Places n ix)
  (hsize : g.size ≤ 4294967296) {v : Nat}

lemma Document.comparison?_eq_some {condition : Option Document.Guard}
    {cmp : Option (Relation × Int)} (h : Document.comparison? condition = some cmp) :
    (condition = none ∧ cmp = none) ∨ ∃ c r, condition = some c ∧
      Relation.ofSymbol? c.cmp = some r ∧ cmp = some (r, c.value) := by
  cases condition with
  | none => exact Or.inl ⟨rfl, (Option.some.inj h).symm⟩
  | some c =>
    obtain ⟨r, hr, rfl⟩ := Option.map_eq_some_iff.mp h
    exact Or.inr ⟨c, r, rfl, hr, rfl⟩

include hn hsize in
/-- The condition of a vertex is that of its statement. -/
lemma condition_replay {op : Operation} {guard : Option Document.Guard}
    {condition : Option Condition} (hv : v < g.size)
    (hcmp : Document.comparison? guard = some op.comparison)
    (hbits : g.bitsInto v .conbit = Document.guardBits guard)
    (h : n.condition g v op = .ok condition) : Document.condition? ix guard = some condition := by
  unfold Numbering.condition at h
  rcases Document.comparison?_eq_some hcmp with ⟨rfl, hop⟩ | ⟨c, r, rfl, hr, hop⟩
  · rw [hop] at h
    obtain rfl := Except.ok.inj h
    rfl
  · rw [hop] at h
    simp only [Graph.incidentBits_ok hsize hv, hbits, bind_eq_ok, mapError_eq_ok] at h
    obtain ⟨bits, hb, dense, hdense, hcond⟩ := h
    obtain rfl := Except.ok.inj hb
    obtain rfl := Except.ok.inj hcond
    have hdense : c.clbits.mapM (ix .clbit) = some dense := mapM_dense hn hdense
    simp [Document.condition?, hdense, hr]

end Conditions

/-- Constants are their own values. -/
lemma resolve_literals (params : List Float) (i : Nat) (caller : List Float) (index : List Int) :
    Operation.resolveFrom caller i index (Graph.literals params) = .ok params := by
  induction params generalizing i with
  | nil => rfl
  | cons x params ih =>
    have ih := ih (i + 1)
    simp only [Graph.literals] at ih ⊢
    simp [Operation.resolveFrom, Operation.next, Expr.arity, Expr.evaluate, ih, bind, Except.bind,
      pure, Except.pure]

/-! ### Calls -/

/-- The operation of a part that stands in the graph. -/
lemma Document.Statement.RendersAt.part {g : Graph} {v : Nat} {p : Document.Part}
    (h : (Document.Statement.callee p).RendersAt g v) :
    ∃ o, p.operation? = some o ∧
      g.vertex? v = some (if p.caller then .caller o else .callee o) ∧
        g.bitsInto v .qubit = p.qubits ∧ g.bitsInto v .conbit = Document.guardBits p.condition := by
  obtain ⟨x, hx, hr⟩ := h
  obtain ⟨o, ho, rfl⟩ := Option.map_eq_some_iff.mp hx
  exact ⟨o, ho, hr.vertex, hr.qubits, hr.conbits⟩

lemma Document.Part.operation?_eq_some {p : Document.Part} {o : Operation}
    (h : p.operation? = some o) : o.name = p.name ∧ o.qubits = p.qubits ∧
      (p.params.mapM Document.expression).toOption = some o.params ∧ o.pindex = p.pindex ∧
        Document.comparison? p.condition = some o.comparison := by
  simp only [Document.Part.operation?, Option.bind_eq_bind, Option.bind_eq_some_iff,
    Option.pure_def, Option.some.injEq] at h
  obtain ⟨params, hparams, cmp, hcmp, rfl⟩ := h
  exact ⟨rfl, rfl, hparams, rfl, hcmp⟩

section Calls

variable {sts : List Document.Statement} {g : Graph} {n : Numbering}
  {ix : BitKind → Nat → Option Nat} (hn : Places n ix) (hsize : g.size ≤ 4294967296)

include hn hsize in
/-- A part is handed the same in the graph and in the document. -/
lemma context_replay {c c' : CallContext} {v : Nat} {p : Document.Part} {o : Operation}
    (hv : v < g.size) (ho : p.operation? = some o)
    (hbits : g.bitsInto v .conbit = Document.guardBits p.condition)
    (h : c.inner g n v o = .ok c') : p.context? ix c = some c' := by
  obtain ⟨-, hqubits, hparams, hindex, hcmp⟩ := Document.Part.operation?_eq_some ho
  obtain ⟨hq, hp, hsome, hnone⟩ := inner_ok h
  obtain ⟨qubits, params, condition⟩ := c'
  have hp' : (Operation.resolveFrom c.params 0 p.pindex o.params).toOption = some params := by
    rw [← hindex]
    rw [Operation.resolve] at hp
    simp [hp, Except.toOption]
  unfold Document.Part.context?
  rw [← hqubits, hq, hparams]
  simp only [Option.bind_eq_bind, Option.bind_some, hp', Option.pure_def]
  cases hcond : c.condition with
  | some cond =>
    obtain rfl := hsome (by simp [hcond])
    simp [hcond]
  | none =>
    have hc := condition_replay hn hsize hv hcmp hbits (hnone hcond)
    simp [hc]

include hn hsize in
/-- A part gives the same gates in the graph and in the document, if calls do. -/
lemma partTrace_replay {idle : List String} {c : CallContext}
    (hcall : ∀ site name c' cs, c'.qubits.Nodup → callTrace g n idle site name c' = .ok cs →
      ∃ gates, Document.replayCall? sts ix idle name c' = some gates ∧
        Agree (cs.flatMap Schedule.Call.gates) gates)
    (hsup : g.Supplied) (hc : c.qubits.Nodup) {v : Nat} {p : Document.Part}
    (hp : (Document.Statement.callee p).RendersAt g v)
    {cs : List Schedule.Call} (h : partTrace g n (callTrace g n idle) c v = .ok cs) :
    ∃ gates, p.replay? ix (Document.replayCall? sts ix idle) c = some gates ∧
      Agree (cs.flatMap Schedule.Call.gates) gates := by
  obtain ⟨o, ho, hvertex, -, hconbits⟩ := hp.part
  have hv := lt_size_of_vertex hvertex
  obtain ⟨hname, -⟩ := Document.Part.operation?_eq_some ho
  unfold partTrace at h
  rw [hvertex] at h
  unfold Document.Part.replay?
  cases hcaller : p.caller <;> rw [hcaller] at h hvertex
  · obtain ⟨c', hc', hgate⟩ := bind_eq_ok.mp h
    rw [context_replay hn hsize hv ho hconbits hc']
    unfold CallContext.gateCall at hgate
    split at hgate
    · simp at hgate
    · next hmeasure =>
      obtain ⟨dense, hdense, hcs⟩ := bind_eq_ok.mp hgate
      obtain rfl := Except.ok.inj hcs
      rw [hname] at hmeasure
      refine ⟨_, ?_, .refl _⟩
      simp [hmeasure, mapM_dense hn hdense, Schedule.Call.gates, hname]
  · obtain ⟨c', hc', htrace⟩ := bind_eq_ok.mp h
    rw [context_replay hn hsize hv ho hconbits hc']
    obtain ⟨hnd, -⟩ := inner_onQubits hc (hsup.nodup hvertex rfl) hc'
    obtain ⟨gates, hgates, hagree⟩ := hcall v o.name c' cs hnd htrace
    exact ⟨gates, by simpa [hname] using hgates, hagree⟩

lemma replayCall?_eq {idle : List String} {name : String} {c : CallContext}
    {parts : List Document.Part} {gates : List (List Gate)}
    (hbody : Document.bodyOf? name sts = some parts) (hidle : name ∈ idle)
    (hparts : parts.mapM (Document.Part.replay? ix
      (Document.replayCall? sts ix (idle.erase name)) c) = some gates) :
    Document.replayCall? sts ix idle name c = some gates.flatten := by
  rw [Document.replayCall?, hbody]
  simp [hidle, hparts]

/-- Sites and parts side by side, each with gates that agree. -/
lemma forall₂_agree {α : Type} {R : Nat → α → Prop} {vs : List Nat} {xs : List α}
    {F : Nat → List Gate} {f : α → Option (List Gate)} (h : List.Forall₂ R vs xs)
    (hstep : ∀ v ∈ vs, ∀ x ∈ xs, R v x → ∃ gates, f x = some gates ∧ Agree (F v) gates) :
    ∃ gss, xs.mapM f = some gss ∧ Agree (vs.flatMap F) gss.flatten := by
  induction h with
  | nil => exact ⟨[], rfl, .refl _⟩
  | @cons v x vs xs hR _ ih =>
    obtain ⟨gates, hgates, hagree⟩ := hstep v List.mem_cons_self x List.mem_cons_self hR
    obtain ⟨gss, hgss, hrest⟩ := ih fun w hw y hy =>
      hstep w (List.mem_cons_of_mem _ hw) y (List.mem_cons_of_mem _ hy)
    refine ⟨gates :: gss, ?_, hagree.append hrest⟩
    rw [List.mapM_cons, hgates, hgss]
    rfl

/-- The gates of a site, none if there is an error. -/
def gatesOf (trace : Nat → Except CompileError (List Schedule.Call)) (v : Nat) : List Gate :=
  ((trace v).toOption.getD []).flatMap Schedule.Call.gates

lemma gatesOf_ok {trace : Nat → Except CompileError (List Schedule.Call)} {v : Nat}
    {cs : List Schedule.Call} (h : trace v = .ok cs) :
    gatesOf trace v = cs.flatMap Schedule.Call.gates := by
  simp [gatesOf, h, Except.toOption]

lemma flatMap_gatesOf {trace : Nat → Except CompileError (List Schedule.Call)} {vs : List Nat}
    {css : List (List Schedule.Call)} (h : vs.mapM trace = .ok css) :
    css.flatten.flatMap Schedule.Call.gates = vs.flatMap (gatesOf trace) := by
  rw [mapM_eq_ok_iff] at h
  induction h with
  | nil => rfl
  | cons hv _ ih =>
    rw [List.flatten_cons, List.flatMap_append, ih, List.flatMap_cons, gatesOf_ok hv]

include hn in
/-- The users of a qubit of the call are the users of one slot. -/
lemma filter_usesSlot {c : CallContext} (hc : c.qubits.Nodup) {vs ws : List Nat}
    (h : ∀ slot, vs.filter (fun v => slot ∈ g.bitsInto v .qubit) =
      ws.filter fun v => slot ∈ g.bitsInto v .qubit) (d : Nat) :
    vs.filter (usesSlot g ix c · d) = ws.filter (usesSlot g ix c · d) := by
  by_cases hex : ∃ slot q : Nat, c.qubits[slot]? = some q ∧ ix .qubit q = some d
  · obtain ⟨slot, q, hslot, hq⟩ := hex
    have huses : (usesSlot g ix c · d) = fun v => decide (slot ∈ g.bitsInto v .qubit) := by
      funext v
      rw [Bool.eq_iff_iff]
      rw [usesSlot_iff, decide_eq_true_eq]
      constructor
      · rintro ⟨slot', hmem, q', hslot', hq'⟩
        obtain rfl := hn.inj hq' hq
        obtain ⟨_, hslot⟩ := List.getElem?_eq_some_iff.mp hslot
        obtain ⟨_, hslot'⟩ := List.getElem?_eq_some_iff.mp hslot'
        exact (List.Nodup.getElem_inj_iff hc).mp (hslot'.trans hslot.symm) ▸ hmem
      · exact fun hmem => ⟨slot, hmem, q, hslot, hq⟩
    rw [huses]
    exact h slot
  · have hnone : ∀ v, usesSlot g ix c v d = false := by
      intro v
      rw [Bool.eq_false_iff]
      intro huses
      obtain ⟨slot, -, q, hslot, hq⟩ := usesSlot_iff.mp huses
      exact hex ⟨slot, q, hslot, hq⟩
    simp [hnone]

include hn in
/-- **Expanding a call replays it**: the body may be walked in another order than the document has
it, but every qubit sees the same gates. -/
theorem callTrace_replay (ho : Document.Origin sts g) (hdecl : Document.SlotsDeclared none sts)
    {idle : List String} {site : Nat} {name : String} {c : CallContext} {cs : List Schedule.Call}
    (hc : c.qubits.Nodup) (h : callTrace g n idle site name c = .ok cs) :
    ∃ gates, Document.replayCall? sts ix idle name c = some gates ∧
      Agree (cs.flatMap Schedule.Call.gates) gates := by
  induction idle using idle_induct generalizing site name c cs with
  | call idle ih =>
    obtain ⟨r, css, hfind, hidle, hcss, rfl⟩ := callTrace_ok.mp h
    have hg := Document.build_wired ho.built ho.words
    have hb := Document.build_bodied ho.built ho.words ho.qubits hdecl
    have hsup := Document.build_supplied ho.built ho.words ho.loopless
    obtain ⟨parts, hbody, hr, hmembers⟩ :=
      Document.build_findDefinition ho.built ho.words ho.qubits hfind
    set trace := partTrace g n (callTrace g n (idle.erase name)) c with htrace
    have hperm := bodyFrom_perm hg hb ho.loopless ho.words hr
    obtain ⟨gss, hgss, hagree⟩ := forall₂_agree (F := gatesOf trace) hmembers fun v hv p _ hp => by
      obtain ⟨cs, -, hcs⟩ := ok_of_mapM hcss (hperm.mem_iff.mpr hv)
      rw [gatesOf_ok hcs]
      exact partTrace_replay hn ho.words (fun site name c' cs hc' hcs => ih _ hidle hc' hcs)
        hsup hc hp hcs
    refine ⟨_, replayCall?_eq hbody hidle hgss, ?_⟩
    rw [flatMap_gatesOf hcss]
    refine Agree.trans (agree_flatMap (usesSlot g ix c) hperm (fun d => ?_)
      fun v hv k hk d hd => ?_) hagree
    · exact filter_usesSlot hn hc (bodyFrom_filter hg hb ho.loopless ho.words hr) d
    · obtain ⟨cs, -, hcs⟩ := ok_of_mapM hcss hv
      rw [gatesOf_ok hcs] at hk
      obtain ⟨call, hcall, hk⟩ := List.mem_flatMap.mp hk
      exact (partTrace_onQubits hn (fun site name c' cs hc' => callTrace_onQubits hn hsup hc')
        hsup hc hcs call hcall).2 d (Schedule.qubits_of_mem_gates hk d hd)

end Calls

end QCircuit
