import Mathlib.Tactic
import QCircuit.Document
import QCircuit.Proofs.Json.Decoding

/-!
Graph documents are read back from their text.
-/

namespace QCircuit.Document

open Json (Value)

/-! ### Documents whose numbers fit -/

structure Guard.Fits (g : Guard) : Prop where
  clbits : ∀ b ∈ g.clbits, b < 4294967296
  low : -9223372036854775808 ≤ g.value
  high : g.value < 9223372036854775808

structure Invocation.Fits (i : Invocation) : Prop where
  qubits : ∀ b ∈ i.qubits, b < 4294967296
  clbits : ∀ b ∈ i.clbits, b < 4294967296
  condition : ∀ g ∈ i.condition, g.Fits

structure Head.Fits (h : Head) : Prop where
  params : h.params < 18446744073709551616
  qubits : h.qubits < 18446744073709551616
  clbits : h.clbits < 18446744073709551616

structure Part.Fits (p : Part) : Prop where
  qubits : ∀ b ∈ p.qubits, b < 4294967296
  clbits : ∀ b ∈ p.clbits, b < 4294967296
  pindex : ∀ n ∈ p.pindex, -9223372036854775808 ≤ n ∧ n < 9223372036854775808
  condition : ∀ g ∈ p.condition, g.Fits

/-- The numbers of a statement are in the range of their words. -/
def Statement.Fits : Statement → Prop
  | .register r => r.start < 4294967296 ∧ r.count < 4294967296
  | .op i | .caller i => i.Fits
  | .define h => h.Fits
  | .callee p => p.Fits

/-- The parameters that are doubles; those inside of a definition are texts. -/
def Statement.params : Statement → List Float
  | .op i | .caller i => i.params
  | _ => []

def Fits (d : Document) : Prop := ∀ s ∈ d.statements, s.Fits

def params (d : Document) : List Float := d.statements.flatMap Statement.params

/-! ### Records from their fields

The values of the fields are variables here: nothing then looks into a number to decide whether it
fits. -/

section fields

variable {v kind start count name params qubits clbits pindex caller cmp value : Value}
  {condition : Option Value}

lemma Guard.ofJson?_eq {g : Guard}
    (hfields : v.fields? ["clbits", "cmp", "value"] = some [some clbits, some cmp, some value])
    (hclbits : clbits.list? Value.word32? = some g.clbits) (hcmp : cmp.text? = some g.cmp)
    (hvalue : value.int64? = some g.value) : Guard.ofJson? v = some g := by
  rw [Guard.ofJson?, hfields]
  simp [hclbits, hcmp, hvalue]

lemma registerOfJson?_eq {r : Register}
    (hfields : v.fields? ["kind", "start", "count"] = some [some kind, some start, some count])
    (hkind : bitKindOfJson? kind = some r.kind) (hstart : start.word32? = some r.start)
    (hcount : count.word32? = some r.count) : registerOfJson? v = some r := by
  rw [registerOfJson?, hfields]
  simp [hkind, hstart, hcount]

/-- A call is read up to its parameters. -/
lemma Invocation.ofJson?_eq {i : Invocation}
    (hfields : v.fields? ["name", "params", "qubits", "clbits", "condition"] =
      some [some name, some params, some qubits, some clbits, condition])
    (hname : name.text? = some i.name) (hqubits : qubits.list? Value.word32? = some i.qubits)
    (hclbits : clbits.list? Value.word32? = some i.clbits)
    (hcondition : guardOfField? condition = some i.condition) :
    Invocation.ofJson? v =
      (params.list? Value.float?).map fun ps => { i with params := ps } := by
  rw [Invocation.ofJson?, hfields]
  cases hparams : params.list? Value.float? <;>
    simp [hname, hqubits, hclbits, hcondition, hparams]

lemma Head.ofJson?_eq {h : Head}
    (hfields : v.fields? ["name", "params", "qubits", "clbits"] =
      some [some name, some params, some qubits, some clbits])
    (hname : name.text? = some h.name) (hparams : params.word64? = some h.params)
    (hqubits : qubits.word64? = some h.qubits) (hclbits : clbits.word64? = some h.clbits) :
    Head.ofJson? v = some h := by
  rw [Head.ofJson?, hfields]
  simp [hname, hparams, hqubits, hclbits]

lemma Part.ofJson?_eq {p : Part}
    (hfields : v.fields? ["name", "params", "qubits", "clbits", "pindex", "caller", "condition"] =
      some [some name, some params, some qubits, some clbits, some pindex, some caller, condition])
    (hname : name.text? = some p.name) (hparams : params.list? Value.text? = some p.params)
    (hqubits : qubits.list? Value.word32? = some p.qubits)
    (hclbits : clbits.list? Value.word32? = some p.clbits)
    (hpindex : pindex.list? Value.int64? = some p.pindex)
    (hcaller : caller.bool? = some p.caller)
    (hcondition : guardOfField? condition = some p.condition) : Part.ofJson? v = some p := by
  rw [Part.ofJson?, hfields]
  simp [hname, hparams, hqubits, hclbits, hpindex, hcaller, hcondition]

lemma Statement.ofJson?_record (k : String) (v : Value) :
    Statement.ofJson? (Value.record [(k, v)]) =
      match k with
      | "register" => (registerOfJson? v).map .register
      | "op" => (Invocation.ofJson? v).map .op
      | "caller" => (Invocation.ofJson? v).map .caller
      | "def" => (Head.ofJson? v).map .define
      | "callee" => (Part.ofJson? v).map .callee
      | _ => none := rfl

lemma ofJson?_eq {statements : Value} (hfields : v.fields? ["statements"] = some [some statements]) :
    ofJson? v = (statements.list? Statement.ofJson?).map Document.mk := by
  rw [ofJson?, hfields]
  cases hstatements : statements.list? Statement.ofJson? <;> simp [hstatements]

end fields

/-! ### Conditions -/

lemma Guard.ofJson?_toJson {g : Guard} (h : g.Fits) : Guard.ofJson? g.toJson = some g :=
  Guard.ofJson?_eq
    (Value.fields?_record_present [("clbits", some (Value.list Value.nat g.clbits)),
      ("cmp", some (Value.text g.cmp)), ("value", some (Value.int g.value))] (by simp))
    (Value.list?_word32 h.clbits) (Value.text?_text _) (Value.int64?_int h.low h.high)

/-- A condition that is left out is read as none. -/
lemma guardOfField?_map {c : Option Guard} (h : ∀ g ∈ c, g.Fits) :
    guardOfField? (c.map Guard.toJson) = some c :=
  (Value.nullable?_map_iff rfl).mpr fun g hg => Guard.ofJson?_toJson (h g hg)

/-! ### Statements -/

lemma bitKindOfJson?_toJson (k : BitKind) : bitKindOfJson? (bitKindToJson k) = some k := by
  cases k <;> decide

lemma registerOfJson?_toJson {r : Register} (hstart : r.start < 4294967296)
    (hcount : r.count < 4294967296) : registerOfJson? (registerToJson r) = some r :=
  registerOfJson?_eq
    (Value.fields?_record_present [("kind", some (bitKindToJson r.kind)),
      ("start", some (Value.nat r.start)), ("count", some (Value.nat r.count))] (by simp))
    (bitKindOfJson?_toJson _) (Value.word32?_nat hstart) (Value.word32?_nat hcount)

lemma Invocation.toJson_eq (i : Invocation) : i.toJson = Value.record (Value.present
    [("name", some (Value.text i.name)), ("params", some (Value.list Value.float i.params)),
      ("qubits", some (Value.list Value.nat i.qubits)),
      ("clbits", some (Value.list Value.nat i.clbits)),
      ("condition", i.condition.map Guard.toJson)]) := by
  rw [Invocation.toJson]
  cases i.condition <;> rfl

/-- A call is read back if and only if its parameters are. -/
lemma Invocation.ofJson?_toJson_iff {i : Invocation} (h : i.Fits) :
    Invocation.ofJson? i.toJson = some i ↔
      ∀ x ∈ i.params, x.isFinite ∧ Json.Numeral.ReadsNearest x := by
  have hjson : Invocation.ofJson? i.toJson =
      ((Value.list Value.float i.params).list? Value.float?).map fun ps =>
        { i with params := ps } := by
    rw [Invocation.toJson_eq]
    exact Invocation.ofJson?_eq (Value.fields?_record_present _ (by simp)) (Value.text?_text _)
      (Value.list?_word32 h.qubits) (Value.list?_word32 h.clbits) (guardOfField?_map h.condition)
  have hinj : Function.Injective fun ps => { i with params := ps } := by
    intro ps qs heq
    exact congrArg Invocation.params heq
  calc Invocation.ofJson? i.toJson = some i
      ↔ (Value.list Value.float i.params).list? Value.float? = some i.params := by
        rw [hjson]
        exact (Option.map_injective hinj).eq_iff (b := some i.params)
    _ ↔ ∀ x ∈ i.params, (Value.float x).float? = some x := Value.list?_list_iff
    _ ↔ ∀ x ∈ i.params, x.isFinite ∧ Json.Numeral.ReadsNearest x :=
        forall₂_congr fun x _ => Json.Numeral.float?_float_iff

lemma Head.ofJson?_toJson {h : Head} (hfits : h.Fits) : Head.ofJson? h.toJson = some h :=
  Head.ofJson?_eq
    (Value.fields?_record_present [("name", some (Value.text h.name)),
      ("params", some (Value.nat h.params)), ("qubits", some (Value.nat h.qubits)),
      ("clbits", some (Value.nat h.clbits))] (by simp))
    (Value.text?_text _) (Value.word64?_nat hfits.params) (Value.word64?_nat hfits.qubits)
    (Value.word64?_nat hfits.clbits)

lemma Part.toJson_eq (p : Part) : p.toJson = Value.record (Value.present
    [("name", some (Value.text p.name)), ("params", some (Value.list Value.text p.params)),
      ("qubits", some (Value.list Value.nat p.qubits)),
      ("clbits", some (Value.list Value.nat p.clbits)),
      ("pindex", some (Value.list Value.int p.pindex)), ("caller", some (.bool p.caller)),
      ("condition", p.condition.map Guard.toJson)]) := by
  rw [Part.toJson]
  cases p.condition <;> rfl

lemma Part.ofJson?_toJson {p : Part} (h : p.Fits) : Part.ofJson? p.toJson = some p := by
  rw [Part.toJson_eq]
  refine Part.ofJson?_eq (Value.fields?_record_present _ (by simp)) (Value.text?_text _) ?_
    (Value.list?_word32 h.qubits) (Value.list?_word32 h.clbits) ?_ rfl
    (guardOfField?_map h.condition)
  · exact Value.list?_list_iff.mpr fun s _ => Value.text?_text s
  · exact Value.list?_list_iff.mpr fun n hn =>
      Value.int64?_int (h.pindex n hn).1 (h.pindex n hn).2

/-- A statement is read back if and only if its parameters are. -/
lemma Statement.ofJson?_toJson_iff {s : Statement} (h : s.Fits) :
    Statement.ofJson? s.toJson = some s ↔
      ∀ x ∈ s.params, x.isFinite ∧ Json.Numeral.ReadsNearest x := by
  cases s with
  | register r =>
    rw [Statement.toJson, Statement.ofJson?_record, registerOfJson?_toJson h.1 h.2]
    simp [Statement.params]
  | op i =>
    rw [Statement.toJson, Statement.ofJson?_record, Statement.params,
      ← Invocation.ofJson?_toJson_iff h]
    simp
  | caller i =>
    rw [Statement.toJson, Statement.ofJson?_record, Statement.params,
      ← Invocation.ofJson?_toJson_iff h]
    simp
  | define d =>
    rw [Statement.toJson, Statement.ofJson?_record, Head.ofJson?_toJson h]
    simp [Statement.params]
  | callee p =>
    rw [Statement.toJson, Statement.ofJson?_record, Part.ofJson?_toJson h]
    simp [Statement.params]

/-! ### Literals in documents -/

lemma Guard.plain_toJson (g : Guard) : g.toJson.Plain := by
  apply Value.plain_record
  simp [Value.plain_list]

lemma plain_registerToJson (r : Register) : (registerToJson r).Plain := by
  apply Value.plain_record
  simp [bitKindToJson]

lemma Invocation.plain_toJson (i : Invocation) : i.toJson.Plain := by
  rw [Invocation.toJson_eq]
  apply Value.plain_present
  simp [Value.plain_list, Guard.plain_toJson]

lemma Head.plain_toJson (h : Head) : h.toJson.Plain := by
  apply Value.plain_record
  simp

lemma Part.plain_toJson (p : Part) : p.toJson.Plain := by
  rw [Part.toJson_eq]
  apply Value.plain_present
  simp [Value.plain_list, Guard.plain_toJson]

lemma Statement.plain_toJson (s : Statement) : s.toJson.Plain := by
  cases s <;> apply Value.plain_record <;>
    simp [plain_registerToJson, Invocation.plain_toJson, Head.plain_toJson, Part.plain_toJson]

lemma plain_toJson (d : Document) : d.toJson.Plain := by
  apply Value.plain_record
  simp [Value.plain_list, Statement.plain_toJson]

/-! ### Documents -/

/-- A document is read back if and only if the parameters of its calls are. -/
theorem ofJson?_toJson_iff {d : Document} (h : d.Fits) :
    ofJson? d.toJson = some d ↔ ∀ x ∈ d.params, x.isFinite ∧ Json.Numeral.ReadsNearest x := by
  have hjson : ofJson? d.toJson =
      ((Value.list Statement.toJson d.statements).list? Statement.ofJson?).map Document.mk :=
    ofJson?_eq (Value.fields?_record_present
      [("statements", some (Value.list Statement.toJson d.statements))] (by simp))
  have hinj : Function.Injective Document.mk := fun _ _ heq => Document.mk.inj heq
  calc ofJson? d.toJson = some d
      ↔ (Value.list Statement.toJson d.statements).list? Statement.ofJson? =
          some d.statements := by
        rw [hjson]
        exact (Option.map_injective hinj).eq_iff (b := some d.statements)
    _ ↔ ∀ s ∈ d.statements, Statement.ofJson? s.toJson = some s := Value.list?_list_iff
    _ ↔ ∀ s ∈ d.statements, ∀ x ∈ s.params, x.isFinite ∧ Json.Numeral.ReadsNearest x :=
        forall₂_congr fun s hs => Statement.ofJson?_toJson_iff (h s hs)
    _ ↔ ∀ x ∈ d.params, x.isFinite ∧ Json.Numeral.ReadsNearest x := by
        simp only [params, List.mem_flatMap]
        exact ⟨fun h x ⟨s, hs, hx⟩ => h s hs x hx, fun h s hs x hx => h x ⟨s, hs, hx⟩⟩

lemma parse_text_eq_ok_iff {d : Document} (h : d.Fits) :
    parse d.text = .ok d ↔ ∀ x ∈ d.params, x.isFinite ∧ Json.Numeral.ReadsNearest x := by
  rw [← ofJson?_toJson_iff h, parse, text, Json.parse?_compact d.plain_toJson, Option.bind_some]
  cases ofJson? d.toJson <;> simp

/-- **Documents survive their text.** When the parameters of its calls are finite, and the literal
of each is read as the double nearest to it, a document is read back as it was written. -/
theorem parse_text_of_readsNearest {d : Document} (h : d.Fits)
    (hfinite : ∀ x ∈ d.params, x.isFinite)
    (hreads : ∀ x ∈ d.params, Json.Numeral.ReadsNearest x) : parse d.text = .ok d :=
  (parse_text_eq_ok_iff h).mpr fun x hx => ⟨hfinite x hx, hreads x hx⟩

theorem parse_text_rotation :
    parse (Document.mk [.define ⟨"g", 1, 1, 0⟩,
      .op ⟨"RX", [0.5], [0], [], some ⟨[1], "==", -1⟩⟩]).text =
      .ok ⟨[.define ⟨"g", 1, 1, 0⟩, .op ⟨"RX", [0.5], [0], [], some ⟨[1], "==", -1⟩⟩]⟩ := by
  refine parse_text_of_readsNearest ?_ ?_ ?_
  · have hhead : Statement.Fits (.define ⟨"g", 1, 1, 0⟩) :=
      Head.Fits.mk (by decide) (by decide) (by decide)
    have hguard : Guard.Fits ⟨[1], "==", -1⟩ := ⟨by decide, by decide, by decide⟩
    have hcall : Statement.Fits (.op ⟨"RX", [0.5], [0], [], some ⟨[1], "==", -1⟩⟩) :=
      Invocation.Fits.mk (by decide) (by decide) (by simpa using hguard)
    simpa [Fits] using ⟨hhead, hcall⟩
  · simp only [params, Statement.params, List.flatMap_cons, List.flatMap_nil, List.append_nil,
      List.nil_append, List.forall_mem_singleton]
    decide
  · simpa [params, Statement.params] using Json.Numeral.readsNearest_half

end QCircuit.Document
