import QCircuit.Proofs.Compile.Trace

/-!
Where errors come from.

Each error of an expansion is one of a single vertex: of what it is handed, of the bits that it
looks up, or of the scheduler.
-/

namespace QCircuit

namespace Schedule

lemma place_eq_error {s : Schedule} {gate : Gate} {e : CompileError} (h : s.place gate = .error e) :
    e = .arity gate.name gate.qubits.length ∨
      ∃ q ∈ gate.qubits, s.rows.length ≤ q ∧ e = .outOfRange q s.rows.length := by
  unfold place at h
  split at h
  · exact Or.inl (Except.error.inj h).symm
  · split at h
    · next q hq =>
      have hout := List.find?_some hq
      exact Or.inr ⟨q, List.mem_of_find?_eq_some hq, by simpa using hout, (Except.error.inj h).symm⟩
    · simp at h

lemma measure_eq_error {s : Schedule} {targets : List (Nat × Nat)} {condition : Option Condition}
    {e : CompileError} (h : s.measure targets condition = .error e) :
    ∃ t ∈ targets, s.rows.length ≤ t.1 ∧ e = .outOfRange t.1 s.rows.length := by
  unfold measure at h
  split at h
  · next q hq =>
    have hout := List.find?_some hq
    obtain ⟨t, ht, rfl⟩ := List.mem_map.mp (List.mem_of_find?_eq_some hq)
    exact ⟨t, ht, by simpa using hout, (Except.error.inj h).symm⟩
  · simp at h

lemma exists_of_emit_error {measured : List Nat} {t q : Nat} {cell : Option Cell} {e : CompileError}
    (h : emit measured t q cell = .error e) : ∃ hit name, e = .afterMeasurement hit t name := by
  unfold emit at h
  grind

lemma flatten_eq_error {s : Schedule} {clbits : Nat} {e : CompileError}
    (h : s.flatten clbits = .error e) : ∃ hit t name, e = .afterMeasurement hit t name := by
  have hslices : ∀ ts measured, s.slicesFrom measured ts = .error e →
      ∃ hit t name, e = .afterMeasurement hit t name := by
    intro ts
    induction ts with
    | nil => simp [slicesFrom]
    | cons t ts ih =>
      intro measured h
      simp only [slicesFrom, bind_eq_error, pure, Except.pure, reduceCtorEq, and_false,
        exists_false, or_false] at h
      rcases h with h | ⟨gates, -, h⟩
      · simp only [slice, bind_eq_error, pure, Except.pure, reduceCtorEq, and_false,
          exists_false, or_false] at h
        obtain ⟨⟨row, q⟩, -, h⟩ := exists_of_mapM_error h
        simp only [bind_eq_error, reduceCtorEq, and_false, exists_false, or_false] at h
        obtain ⟨hit, name, rfl⟩ := exists_of_emit_error h
        exact ⟨hit, t, name, rfl⟩
      · exact ih _ h
  simp only [flatten, bind_eq_error, pure, Except.pure, reduceCtorEq, and_false, exists_false,
    or_false] at h
  exact hslices _ _ h

end Schedule

section Vertex

variable {g : Graph} {n : Numbering} {v : Nat} {op : Operation} {c : CallContext} {e : CompileError}

lemma Numbering.dense_eq_error {kind : BitKind} {bit : Nat} (h : n.dense kind v bit = .error e) :
    ((n.map kind).get? bit = none ∧ e = .graph (.access v (.undeclared kind bit))) ∨
      ∃ d, (n.map kind).get? bit = some d ∧ n.live kind ≤ d ∧
        e = .graph (.access v (.beyondLive kind bit d (n.live kind))) := by
  unfold dense at h
  split at h
  · next hnone => exact Or.inl ⟨hnone, (Except.error.inj h).symm⟩
  · next d hd =>
    split at h
    · simp at h
    · next hlive => exact Or.inr ⟨d, hd, Nat.le_of_not_lt hlive, (Except.error.inj h).symm⟩

lemma Numbering.condition_eq_error (h : n.condition g v op = .error e) :
    (∃ fault, g.incidentBits v .conbit = .error fault ∧ e = .graph fault) ∨
      ∃ bits, g.incidentBits v .conbit = .ok bits ∧ ∃ b ∈ bits, n.dense .clbit v b = .error e := by
  unfold condition at h
  split at h
  · simp at h
  · rcases bind_eq_error.mp h with hbits | ⟨bits, hbits, h⟩
    · obtain ⟨fault, hfault, rfl⟩ := mapError_eq_error.mp hbits
      exact Or.inl ⟨fault, hfault, rfl⟩
    · rcases bind_eq_error.mp h with hdense | ⟨dense, -, h⟩
      · exact Or.inr ⟨bits, mapError_eq_ok.mp hbits, exists_of_mapM_error hdense⟩
      · simp [pure, Except.pure] at h

/-- What a vertex of a body is handed can be wrong, or a bit of its condition. -/
lemma CallContext.inner_eq_error (h : c.inner g n v op = .error e) :
    (∃ fault, fault ≠ .recursive ∧ e = .expansion v op.name fault) ∨
      c.condition = none ∧ n.condition g v op = .error e := by
  rcases bind_eq_error.mp h with hqubits | ⟨qubits, -, h⟩
  · obtain ⟨slot, -, hslot⟩ := exists_of_mapM_error hqubits
    split at hslot
    · simp at hslot
    · exact Or.inl ⟨_, by simp, (Except.error.inj hslot).symm⟩
  · rcases bind_eq_error.mp h with hparams | ⟨params, -, h⟩
    · obtain ⟨fault, -, rfl⟩ := mapError_eq_error.mp hparams
      exact Or.inl ⟨_, by simp, rfl⟩
    · cases hc : c.condition with
      | none =>
        simp only [hc] at h
        rcases bind_eq_error.mp h with hcondition | ⟨_, -, h⟩
        · exact Or.inr ⟨rfl, hcondition⟩
        · simp [pure, Except.pure] at h
      | some condition => simp [hc, pure, Except.pure, bind, Except.bind] at h

lemma Schedule.placeInBody_eq_error {s : Schedule} (h : s.placeInBody n v op c = .error e) :
    e = .expansion v op.name .measurement ∨ (∃ q ∈ c.qubits, n.dense .qubit v q = .error e) ∨
      ∃ dense, c.qubits.mapM (n.dense .qubit v) = .ok dense ∧
        s.place (.named op.name dense c.params c.condition) = .error e := by
  unfold placeInBody at h
  split at h
  · exact Or.inl (Except.error.inj h).symm
  · rcases bind_eq_error.mp h with hdense | ⟨dense, hdense, hplace⟩
    · exact Or.inr (Or.inl (exists_of_mapM_error hdense))
    · exact Or.inr (Or.inr ⟨dense, hdense, hplace⟩)

end Vertex

section Expansion

variable {g : Graph} {n : Numbering} {idle : List String} {c : CallContext} {s s' : Schedule}
  {e : CompileError}

/-- Expanding a call adds no row. -/
lemma length_expandCall {site : Nat} {name : String} {slot : Nat}
    (h : expandCall g n idle site name c s = .ok (s', slot)) :
    s'.rows.length = s.rows.length := by
  obtain ⟨cs, -, hcs⟩ := expandCall_ok.mp ⟨slot, h⟩
  exact Schedule.length_performAll hcs

/-- What fails at a vertex of a body. -/
inductive FailsAt (g : Graph) (n : Numbering) (idle : List String) (c : CallContext) (s : Schedule)
    (v : Nat) (e : CompileError) : Prop
  | inner {op : Operation}
      (vertex : g.vertex? v = some (.callee op) ∨ g.vertex? v = some (.caller op))
      (fails : c.inner g n v op = .error e)
  | gate {op : Operation} {c' : CallContext} (vertex : g.vertex? v = some (.callee op))
      (inner : c.inner g n v op = .ok c') (fails : s.placeInBody n v op c' = .error e)
  | call {op : Operation} {c' : CallContext} (vertex : g.vertex? v = some (.caller op))
      (inner : c.inner g n v op = .ok c')
      (fails : expandCall g n idle v op.name c' s = .error e)

/-- A body fails as one of its vertices does. -/
lemma expandBody_eq_error {vs : List Nat} {top : Nat}
    (h : expandBody g n idle c vs s top = .error e) :
    ∃ v ∈ vs, ∃ s', s'.rows.length = s.rows.length ∧ FailsAt g n idle c s' v e := by
  induction vs generalizing s top with
  | nil => simp [expandBody] at h
  | cons v vs ih =>
    have hrest : ∀ {s₁ : Schedule} {top₁ : Nat}, s₁.rows.length = s.rows.length →
        expandBody g n idle c vs s₁ top₁ = .error e →
        ∃ v' ∈ v :: vs, ∃ s', s'.rows.length = s.rows.length ∧ FailsAt g n idle c s' v' e := by
      intro s₁ top₁ hlen h
      obtain ⟨w, hw, s', hlen', hfails⟩ := ih h
      exact ⟨w, List.mem_cons_of_mem _ hw, s', hlen'.trans hlen, hfails⟩
    rw [expandBody] at h
    split at h
    · next op hvertex =>
      rcases bind_eq_error.mp h with hinner | ⟨c', hinner, h⟩
      · exact ⟨v, by simp, s, rfl, .inner (Or.inl hvertex) hinner⟩
      rcases bind_eq_error.mp h with hplace | ⟨⟨s₁, slot⟩, hplace, h⟩
      · exact ⟨v, by simp, s, rfl, .gate hvertex hinner hplace⟩
      · obtain ⟨cs, -, hcs⟩ := placeInBody_ok.mp ⟨slot, hplace⟩
        exact hrest (Schedule.length_performAll hcs) h
    · next op hvertex =>
      rcases bind_eq_error.mp h with hinner | ⟨c', hinner, h⟩
      · exact ⟨v, by simp, s, rfl, .inner (Or.inr hvertex) hinner⟩
      rcases bind_eq_error.mp h with hcall | ⟨⟨s₁, slot⟩, hcall, h⟩
      · exact ⟨v, by simp, s, rfl, .call hvertex hinner hcall⟩
      · exact hrest (length_expandCall hcall) h
    · exact hrest rfl h

lemma expandCall_eq_error {site : Nat} {name : String}
    (h : expandCall g n idle site name c s = .error e) :
    (g.findDefinition? name = none ∧ e = .expansion site name .undefined) ∨
      ∃ root, g.findDefinition? name = some root ∧
        (name ∉ idle ∧ e = .expansion site name .recursive ∨
          name ∈ idle ∧ expandBody g n (idle.erase name) c (g.bodyFrom root) s 0 = .error e) := by
  rw [expandCall] at h
  split at h
  · next hnone => exact Or.inl ⟨hnone, (Except.error.inj h).symm⟩
  · next root hroot =>
    split at h
    · next hmem => exact Or.inr ⟨root, hroot, Or.inr ⟨hmem, h⟩⟩
    · next hmem => exact Or.inr ⟨root, hroot, Or.inl ⟨hmem, (Except.error.inj h).symm⟩⟩

end Expansion

end QCircuit
