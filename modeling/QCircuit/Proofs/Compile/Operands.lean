import QCircuit.Proofs.Compile.Numbering
import QCircuit.Proofs.Compile.Trace

/-!
The qubits that calls to the scheduler are on.

A vertex is translated into calls on the dense indices of its own qubits. No call has a qubit twice,
as no gate of the graph does and different slots of a call stand for different qubits.
-/

namespace QCircuit

open QCircuit.Graph

/-- A numbering gives the bits the indices `ix`, different ones to different qubits. -/
structure Places (n : Numbering) (ix : BitKind → Nat → Option Nat) : Prop where
  dense : ∀ {kind v b d}, n.dense kind v b = .ok d → ix kind b = some d
  inj : ∀ {a b d}, ix .qubit a = some d → ix .qubit b = some d → a = b

/-- The place of a bit among the declared ones is its dense index. -/
lemma places_index {sts : List Document.Statement} {g : Graph}
    (hbuild : sts.foldlM Document.Statement.apply .empty = .ok g) (hsize : g.size ≤ 4294967296)
    (hregs : Document.RegistersApart sts) {vs : List Nat} (hnd : vs.Nodup)
    (hvs : ∀ v ∈ vs, v < g.size) {n : Numbering}
    (hn : Numbering.ofVertices g vs = .ok n) : Places n (g.index vs) := by
  obtain ⟨n', hn', hmap⟩ := Numbering.ofVertices_ok hsize hvs
  obtain rfl : n' = n := Except.ok.inj (hn'.symm.trans hn)
  have hdeclared := fun kind => declared_nodup hbuild hsize hregs hnd kind
  refine ⟨fun {kind v b d} h => ?_, fun {a b d} ha hb => ?_⟩
  · have hget := (Numbering.dense_ok.mp h).1
    rw [(hmap kind).1, DenseMap.get?_ofList (hdeclared kind)] at hget
    exact (idxOf?_eq_some_of_nodup (hdeclared kind)).mpr hget
  · have ha := (idxOf?_eq_some_of_nodup (hdeclared .qubit)).mp ha
    have hb := (idxOf?_eq_some_of_nodup (hdeclared .qubit)).mp hb
    exact Option.some.inj (ha.symm.trans hb)

section Operands

variable {g : Graph} {n : Numbering} {ix : BitKind → Nat → Option Nat} (hn : Places n ix)

include hn in
lemma mapM_dense {kind : BitKind} {v : Nat} {bits dense : List Nat}
    (h : bits.mapM (n.dense kind v) = .ok dense) : bits.mapM (ix kind) = some dense :=
  mapM_some_of_ok (fun _ _ => hn.dense) h

/-- Calls on distinct qubits that stand for some of `qs`. -/
def OnQubits (ix : BitKind → Nat → Option Nat) (qs : List Nat)
    (cs : List Schedule.Call) : Prop :=
  ∀ k ∈ cs, k.qubits.Nodup ∧ ∀ d ∈ k.qubits, ∃ q ∈ qs, ix .qubit q = some d

/-- What an operation of a body is handed. -/
lemma inner_ok {c c' : CallContext} {v : Nat} {o : Operation} (h : c.inner g n v o = .ok c') :
    (o.qubits.mapM fun slot => c.qubits[slot]?) = some c'.qubits ∧
      o.resolve c.params = .ok c'.params ∧
        (c.condition.isSome → c'.condition = c.condition) ∧
          (c.condition = none → n.condition g v o = .ok c'.condition) := by
  unfold CallContext.inner CallContext.qubitsFor at h
  simp only [bind_eq_ok, mapError_eq_ok] at h
  obtain ⟨qubits, hq, params, hp, h⟩ := h
  obtain ⟨condition, ⟨hsome, hnone⟩, rfl⟩ : ∃ condition,
      ((c.condition.isSome → condition = c.condition) ∧
        (c.condition = none → n.condition g v o = .ok condition)) ∧
          c' = ⟨qubits, params, condition⟩ := by
    cases hcond : c.condition <;> rw [hcond] at h <;>
      obtain ⟨condition, hc, hctx⟩ := bind_eq_ok.mp h
    · exact ⟨condition, ⟨by simp, fun _ => hc⟩, (Except.ok.inj hctx).symm⟩
    · obtain rfl := Except.ok.inj hc
      exact ⟨_, ⟨fun _ => rfl, by simp⟩, (Except.ok.inj hctx).symm⟩
  refine ⟨mapM_some_of_ok (fun slot q hslot => ?_) hq, hp, hsome, hnone⟩
  split at hslot
  · next q' hq' =>
    obtain rfl := Except.ok.inj hslot
    exact hq'
  · simp at hslot

/-- Different slots of a call are different qubits. -/
lemma inner_onQubits {c c' : CallContext} {v : Nat} {o : Operation} (hc : c.qubits.Nodup)
    (ho : o.qubits.Nodup) (h : c.inner g n v o = .ok c') :
    c'.qubits.Nodup ∧ ∀ q ∈ c'.qubits, ∃ slot ∈ o.qubits, c.qubits[slot]? = some q := by
  refine nodup_of_mapM ho (fun a _ b _ d ha hb => ?_) (inner_ok h).1
  obtain ⟨_, ha⟩ := List.getElem?_eq_some_iff.mp ha
  obtain ⟨_, hb⟩ := List.getElem?_eq_some_iff.mp hb
  exact (List.Nodup.getElem_inj_iff hc).mp (ha.trans hb.symm)

/-- Whether the site uses the qubit of the call with this index. -/
def usesSlot (g : Graph) (ix : BitKind → Nat → Option Nat) (c : CallContext) (v d : Nat) : Bool :=
  (g.bitsInto v .qubit).any fun slot => (c.qubits[slot]?).any fun q => ix .qubit q == some d

lemma usesSlot_iff {ix : BitKind → Nat → Option Nat} {c : CallContext} {v d : Nat} :
    usesSlot g ix c v d = true ↔ ∃ slot ∈ g.bitsInto v .qubit, ∃ q, c.qubits[slot]? = some q ∧
      ix .qubit q = some d := by
  simp only [usesSlot, List.any_eq_true, Option.any_eq_true, beq_iff_eq]

include hn in
/-- The calls of a part are on qubits behind its slots, if those of calls are on theirs. -/
lemma partTrace_onQubits {idle : List String} {c : CallContext}
    (hcall : ∀ site name c' cs, c'.qubits.Nodup → callTrace g n idle site name c' = .ok cs →
      OnQubits ix c'.qubits cs)
    (hsup : g.Supplied) (hc : c.qubits.Nodup) {v : Nat} {cs : List Schedule.Call}
    (h : partTrace g n (callTrace g n idle) c v = .ok cs) :
    ∀ k ∈ cs, k.qubits.Nodup ∧ ∀ d ∈ k.qubits, usesSlot g ix c v d := by
  -- the calls of an operation are on what it is handed
  have hhanded : ∀ {vertex o c'}, g.vertex? v = some vertex → vertex.operation? = some o →
      c.inner g n v o = .ok c' → OnQubits ix c'.qubits cs →
      ∀ k ∈ cs, k.qubits.Nodup ∧ ∀ d ∈ k.qubits, usesSlot g ix c v d := by
    intro vertex o c' hvertex ho hc' hon k hk
    refine ⟨(hon k hk).1, fun d hd => usesSlot_iff.mpr ?_⟩
    obtain ⟨q, hq, hqd⟩ := (hon k hk).2 d hd
    obtain ⟨slot, hslot, hcq⟩ := (inner_onQubits hc (hsup.nodup hvertex ho) hc').2 q hq
    exact ⟨slot, hsup.bits hvertex ho ▸ hslot, q, hcq, hqd⟩
  unfold partTrace at h
  split at h
  · next o hvertex =>
    obtain ⟨c', hc', hgate⟩ := bind_eq_ok.mp h
    refine hhanded hvertex rfl hc' fun k hk => ?_
    unfold CallContext.gateCall at hgate
    split at hgate
    · simp at hgate
    · obtain ⟨dense, hdense, hcs⟩ := bind_eq_ok.mp hgate
      obtain rfl := Except.ok.inj hcs
      obtain rfl := List.mem_singleton.mp hk
      obtain ⟨hnd, -⟩ := inner_onQubits hc (hsup.nodup hvertex rfl) hc'
      exact nodup_of_mapM hnd (fun a _ b _ d => hn.inj) (mapM_dense hn hdense)
  · next o hvertex =>
    obtain ⟨c', hc', htrace⟩ := bind_eq_ok.mp h
    obtain ⟨hnd, -⟩ := inner_onQubits hc (hsup.nodup hvertex rfl) hc'
    exact hhanded hvertex rfl hc' (hcall v o.name c' cs hnd htrace)
  · obtain rfl := Except.ok.inj h
    simp

include hn in
/-- **Expanding a call uses its qubits only, and none twice in one place.** -/
theorem callTrace_onQubits (hsup : g.Supplied) {idle : List String} {site : Nat} {name : String}
    {c : CallContext} {cs : List Schedule.Call} (hc : c.qubits.Nodup)
    (h : callTrace g n idle site name c = .ok cs) : OnQubits ix c.qubits cs := by
  induction idle using idle_induct generalizing site name c cs with
  | call idle ih =>
    obtain ⟨r, css, -, hidle, hcss, rfl⟩ := callTrace_ok.mp h
    intro call hcall
    obtain ⟨cs, hcs, hcall⟩ := List.mem_flatten.mp hcall
    obtain ⟨v, -, hvcs⟩ := exists_of_mapM hcss hcs
    obtain ⟨hnd, huses⟩ := partTrace_onQubits hn
      (fun site name c' cs hc' hcs => ih _ hidle hc' hcs) hsup hc hvcs call hcall
    refine ⟨hnd, fun d hd => ?_⟩
    obtain ⟨slot, -, q, hcq, hqd⟩ := usesSlot_iff.mp (huses d hd)
    exact ⟨q, List.mem_of_getElem? hcq, hqd⟩

include hn in
/-- **A vertex uses its qubits only, and none twice in one place.** -/
theorem trace_onQubits_word (hsup : g.Supplied) {v : Nat} {cs : List Schedule.Call}
    (h : g.trace n v = .ok cs) : OnQubits ix (g.bitsInto (v % 4294967296) .qubit) cs := by
  obtain ⟨vertex, hvertex, h⟩ := bind_eq_ok.mp h
  rw [mapError_eq_ok, vertex_word] at hvertex
  cases vertex with
  | op o =>
    obtain ⟨condition, -, h⟩ := bind_eq_ok.mp h
    obtain ⟨dense, hdense, h⟩ := bind_eq_ok.mp h
    have hon := nodup_of_mapM (hsup.nodup hvertex rfl) (fun a _ b _ d => hn.inj)
      (mapM_dense hn hdense)
    rw [hsup.bits hvertex rfl]
    split at h
    · obtain ⟨clbits, targets, -, -, hlen, rfl⟩ := measureTrace_ok h
      intro k hk
      obtain rfl := List.mem_singleton.mp hk
      rw [Schedule.Call.qubits, List.map_fst_zip (Nat.le_of_eq hlen.symm)]
      exact hon
    · obtain ⟨params, -, h⟩ := bind_eq_ok.mp h
      obtain rfl := Except.ok.inj h
      intro k hk
      obtain rfl := List.mem_singleton.mp hk
      exact hon
  | caller o =>
    obtain ⟨condition, -, h⟩ := bind_eq_ok.mp h
    obtain ⟨params, -, h⟩ := bind_eq_ok.mp h
    rw [hsup.bits hvertex rfl]
    exact callTrace_onQubits hn hsup (hsup.nodup hvertex rfl) h
  | _ =>
    obtain rfl := Except.ok.inj h
    exact fun k hk => by simp at hk

include hn in
lemma trace_onQubits (hsup : g.Supplied) (hsize : g.size ≤ 4294967296) {v : Nat}
    (hv : v < g.size) {cs : List Schedule.Call} (h : g.trace n v = .ok cs) :
    OnQubits ix (g.bitsInto v .qubit) cs := by
  have := trace_onQubits_word hn hsup h
  rwa [Nat.mod_eq_of_lt (Nat.lt_of_lt_of_le hv hsize)] at this

end Operands

/-! ### Measurements -/

/-- A body has no measurements. -/
lemma callTrace_unitary {g : Graph} {n : Numbering} {idle : List String} {site : Nat}
    {name : String} {c : CallContext} {cs : List Schedule.Call}
    (h : callTrace g n idle site name c = .ok cs) : ∀ k ∈ cs, k.isMeasurement = false := by
  induction idle using idle_induct generalizing site name c cs with
  | call idle ih =>
    obtain ⟨r, css, -, hidle, hcss, rfl⟩ := callTrace_ok.mp h
    intro call hcall
    obtain ⟨cs, hcs, hcall⟩ := List.mem_flatten.mp hcall
    obtain ⟨v, -, hvcs⟩ := exists_of_mapM hcss hcs
    unfold partTrace at hvcs
    split at hvcs
    · obtain ⟨c', -, hgate⟩ := bind_eq_ok.mp hvcs
      unfold CallContext.gateCall at hgate
      split at hgate
      · simp at hgate
      · obtain ⟨dense, -, hcs⟩ := bind_eq_ok.mp hgate
        obtain rfl := Except.ok.inj hcs
        obtain rfl := List.mem_singleton.mp hcall
        rfl
    · obtain ⟨c', -, htrace⟩ := bind_eq_ok.mp hvcs
      exact ih _ hidle htrace call hcall
    · obtain rfl := Except.ok.inj hvcs
      simp at hcall

/-- A measurement measures all qubits of its vertex. -/
lemma length_qubits_of_trace {g : Graph} {n : Numbering} (hsup : g.Supplied)
    (hsize : g.size ≤ 4294967296) {v : Nat} (hv : v < g.size) {cs : List Schedule.Call}
    (h : g.trace n v = .ok cs) :
    ∀ k ∈ cs, k.isMeasurement → k.qubits.length = (g.bitsInto v .qubit).length := by
  obtain ⟨vertex, hvertex, h⟩ := bind_eq_ok.mp h
  rw [mapError_eq_ok, vertex_ok hsize hv] at hvertex
  cases vertex with
  | op o =>
    obtain ⟨condition, -, h⟩ := bind_eq_ok.mp h
    obtain ⟨dense, hdense, h⟩ := bind_eq_ok.mp h
    rw [hsup.bits hvertex rfl, (mapM_eq_ok_iff.mp hdense).length_eq]
    split at h
    · obtain ⟨clbits, targets, -, -, hlen, rfl⟩ := measureTrace_ok h
      intro k hk _
      obtain rfl := List.mem_singleton.mp hk
      rw [Schedule.Call.qubits, List.map_fst_zip (Nat.le_of_eq hlen.symm)]
    · obtain ⟨params, -, h⟩ := bind_eq_ok.mp h
      obtain rfl := Except.ok.inj h
      intro k hk hm
      obtain rfl := List.mem_singleton.mp hk
      simp [Schedule.Call.isMeasurement] at hm
  | caller o =>
    obtain ⟨condition, -, h⟩ := bind_eq_ok.mp h
    obtain ⟨params, -, h⟩ := bind_eq_ok.mp h
    intro k hk hm
    rw [callTrace_unitary h k hk] at hm
    simp at hm
  | _ =>
    obtain rfl := Except.ok.inj h
    simp

end QCircuit
