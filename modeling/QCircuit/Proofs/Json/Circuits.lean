import Mathlib.Tactic
import QCircuit.Circuit
import QCircuit.Proofs.Json.Decoding

/-!
Circuits are read back from their text.
-/

namespace QCircuit

open Json (Value)

/-! ### Gates whose data fits -/

structure Condition.Fits (c : Condition) : Prop where
  clbits : ∀ b ∈ c.clbits, b < 4294967296
  low : -9223372036854775808 ≤ c.constant
  high : c.constant < 9223372036854775808

/-- The numbers of a gate are in the range of their words, and a name of its own is not one of a
standard gate. -/
structure Gate.Fits (g : Gate) : Prop where
  kind : Gate.Kind.ofName g.name = g.kind
  qubits : ∀ q ∈ g.qubits, q < 4294967296
  clbit : ∀ b ∈ g.clbit, b < 4294967296
  condition : ∀ c ∈ g.condition, c.Fits

structure Circuit.Fits (c : Circuit) : Prop where
  gates : ∀ g ∈ c.gates, g.Fits
  qubits : c.qubits < 18446744073709551616
  clbits : c.clbits < 18446744073709551616

/-! ### Kinds and relations -/

lemma Gate.Standard.ofName?_name (g : Gate.Standard) :
    Gate.Standard.ofName? g.name = some g := by
  cases g <;> decide

/-- The kind of a name is the kind of the name under which it is written; a short name is written as
the long one. -/
lemma Gate.Kind.ofName_name_ofName (s : String) :
    Gate.Kind.ofName (Gate.Kind.ofName s).name = Gate.Kind.ofName s := by
  cases h : Standard.ofName? s with
  | none =>
    have hs : Gate.Kind.ofName s = .custom s := by simp [ofName, h]
    rw [hs, name, hs]
  | some g =>
    have hs : Gate.Kind.ofName s = .standard g := by simp [ofName, h]
    rw [hs, name, ofName, Standard.ofName?_name]
    rfl

lemma Relation.ofJson?_toJson (r : Relation) : Relation.ofJson? r.toJson = some r := by
  cases r <;> decide

/-! ### Records from their fields -/

section fields

variable {v kind qubits clbits relation constant slices : Value}
  {angle clbit condition : Option Value}

lemma Condition.ofJson?_eq {c : Condition}
    (hfields : v.fields? ["clbits", "relation", "constant"] =
      some [some clbits, some relation, some constant])
    (hclbits : clbits.list? Value.word32? = some c.clbits)
    (hrelation : Relation.ofJson? relation = some c.relation)
    (hconstant : constant.int64? = some c.constant) : Condition.ofJson? v = some c := by
  rw [Condition.ofJson?, hfields]
  simp [hclbits, hrelation, hconstant]

/-- A gate is read up to its angle. -/
lemma Gate.ofJson?_eq {g : Gate} {s : String}
    (hfields : v.fields? ["kind", "qubits", "angle", "clbit", "condition"] =
      some [some kind, some qubits, angle, clbit, condition])
    (hkind : kind.text? = some s) (hname : Gate.Kind.ofName s = g.kind)
    (hqubits : qubits.list? Value.word32? = some g.qubits)
    (hclbit : (clbit.getD .null).nullable? Value.word32? = some g.clbit)
    (hcondition : (condition.getD .null).nullable? Condition.ofJson? = some g.condition) :
    Gate.ofJson? v =
      ((angle.getD .null).nullable? Value.float?).map fun a => { g with angle := a } := by
  rw [Gate.ofJson?, hfields]
  cases hangle : (angle.getD .null).nullable? Value.float? <;>
    simp [hkind, hname, hqubits, hclbit, hcondition, hangle]

lemma Circuit.ofJson?_eq {c : Circuit}
    (hfields : v.fields? ["units", "num_qubits", "num_clbits"] =
      some [some slices, some qubits, some clbits])
    (hqubits : qubits.word64? = some c.qubits) (hclbits : clbits.word64? = some c.clbits) :
    Circuit.ofJson? v =
      (slices.list? (Value.list? Gate.ofJson?)).map fun ss => { c with slices := ss } := by
  rw [Circuit.ofJson?, hfields]
  cases hslices : slices.list? (Value.list? Gate.ofJson?) <;> simp [hqubits, hclbits, hslices]

end fields

/-! ### Conditions and gates -/

lemma Condition.ofJson?_toJson {c : Condition} (h : c.Fits) :
    Condition.ofJson? c.toJson = some c :=
  Condition.ofJson?_eq
    (Value.fields?_record_present [("clbits", some (Value.list Value.nat c.clbits)),
      ("relation", some c.relation.toJson), ("constant", some (Value.int c.constant))] (by simp))
    (Value.list?_word32 h.clbits) (Relation.ofJson?_toJson _) (Value.int64?_int h.low h.high)

namespace Gate

lemma toJson_eq (g : Gate) : g.toJson = Value.record (Value.present
    [("kind", some (Value.text g.name)), ("qubits", some (Value.list Value.nat g.qubits)),
      ("angle", g.angle.map Value.float), ("clbit", g.clbit.map Value.nat),
      ("condition", g.condition.map Condition.toJson)]) := by
  rw [Gate.toJson]
  cases g.angle <;> cases g.clbit <;> cases g.condition <;> rfl

/-- A gate is read back if and only if its angle is. -/
lemma ofJson?_toJson_iff {g : Gate} (h : g.Fits) :
    Gate.ofJson? g.toJson = some g ↔
      ∀ a ∈ g.angle, a.isFinite ∧ Json.Numeral.ReadsNearest a := by
  have hjson : Gate.ofJson? g.toJson =
      (((g.angle.map Value.float).getD .null).nullable? Value.float?).map fun a =>
        { g with angle := a } := by
    rw [Gate.toJson_eq]
    exact Gate.ofJson?_eq (Value.fields?_record_present _ (by simp)) (Value.text?_text _) h.kind
      (Value.list?_word32 h.qubits)
      ((Value.nullable?_map_iff rfl).mpr fun b hb => Value.word32?_nat (h.clbit b hb))
      ((Value.nullable?_map_iff rfl).mpr fun c hc => Condition.ofJson?_toJson (h.condition c hc))
  have hinj : Function.Injective fun a => { g with angle := a } := by
    intro a b heq
    exact congrArg Gate.angle heq
  calc Gate.ofJson? g.toJson = some g
      ↔ ((g.angle.map Value.float).getD .null).nullable? Value.float? = some g.angle := by
        rw [hjson]
        exact (Option.map_injective hinj).eq_iff (b := some g.angle)
    _ ↔ ∀ a ∈ g.angle, (Value.float a).float? = some a := Value.nullable?_map_iff rfl
    _ ↔ ∀ a ∈ g.angle, a.isFinite ∧ Json.Numeral.ReadsNearest a :=
        forall₂_congr fun a _ => Json.Numeral.float?_float_iff

end Gate

/-! ### Literals in circuits -/

lemma Condition.plain_toJson (c : Condition) : c.toJson.Plain := by
  apply Value.plain_record
  simp [Value.plain_list, Relation.toJson]

lemma Gate.plain_toJson (g : Gate) : g.toJson.Plain := by
  rw [Gate.toJson_eq]
  apply Value.plain_present
  simp [Value.plain_list, Condition.plain_toJson]

namespace Circuit

lemma plain_toJson (c : Circuit) : c.toJson.Plain := by
  apply Value.plain_record
  simp [Value.plain_list, Gate.plain_toJson]

/-! ### Circuits -/

/-- A circuit is read back if and only if the angles of its gates are. -/
theorem ofJson?_toJson_iff {c : Circuit} (h : c.Fits) : ofJson? c.toJson = some c ↔
    ∀ g ∈ c.gates, ∀ a ∈ g.angle, a.isFinite ∧ Json.Numeral.ReadsNearest a := by
  have hjson : ofJson? c.toJson =
      ((Value.list (Value.list Gate.toJson) c.slices).list? (Value.list? Gate.ofJson?)).map
        fun ss => { c with slices := ss } :=
    ofJson?_eq
      (Value.fields?_record_present
        [("units", some (Value.list (Value.list Gate.toJson) c.slices)),
          ("num_qubits", some (Value.nat c.qubits)), ("num_clbits", some (Value.nat c.clbits))]
        (by simp))
      (Value.word64?_nat h.qubits) (Value.word64?_nat h.clbits)
  have hinj : Function.Injective fun ss => { c with slices := ss } := by
    intro ss ts heq
    exact congrArg Circuit.slices heq
  calc ofJson? c.toJson = some c
      ↔ (Value.list (Value.list Gate.toJson) c.slices).list? (Value.list? Gate.ofJson?) =
          some c.slices := by
        rw [hjson]
        exact (Option.map_injective hinj).eq_iff (b := some c.slices)
    _ ↔ ∀ gs ∈ c.slices, ∀ g ∈ gs, Gate.ofJson? g.toJson = some g := by
        rw [Value.list?_list_iff]
        exact forall₂_congr fun gs _ => Value.list?_list_iff
    _ ↔ ∀ g ∈ c.gates, Gate.ofJson? g.toJson = some g := by
        simp only [gates, List.mem_flatten]
        exact ⟨fun h g ⟨gs, hgs, hg⟩ => h gs hgs g hg, fun h gs hgs g hg => h g ⟨gs, hgs, hg⟩⟩
    _ ↔ ∀ g ∈ c.gates, ∀ a ∈ g.angle, a.isFinite ∧ Json.Numeral.ReadsNearest a :=
        forall₂_congr fun g hg => Gate.ofJson?_toJson_iff (h.gates g hg)

/-- **Circuits are read back from their text** if and only if the literals of their angles are. -/
theorem parse?_text_iff {c : Circuit} (h : c.Fits) : parse? c.text = some c ↔
    ∀ g ∈ c.gates, ∀ a ∈ g.angle, a.isFinite ∧ Json.Numeral.ReadsNearest a := by
  rw [← ofJson?_toJson_iff h, parse?, text, Json.parse?_pretty c.plain_toJson, Option.bind_some]

end Circuit
end QCircuit
