import Mathlib.Data.List.TakeWhile
import QCircuit.Proofs.Graph.Statements

/-!
What a builder call that fails leaves behind.

A gate or a call is looked up as a whole before it is linked, so one that fails changes nothing. The
bits of a condition are looked up one by one, each after the one before it is linked: what comes
before the first unknown bit stays linked to a vertex that has no condition.
-/

namespace QCircuit.Graph

/-- The graph after some calls; what fails changes as much as it does. -/
def run (g : Graph) (cs : List Call) : Graph := cs.foldl (fun g c => (g.perform c).1) g

/-- The bits of a condition outside of bodies, as they are brought in. -/
def conditionBits (clbits : List Nat) : List (Leaf × Wire) :=
  clbits.map fun c => (⟨.global, .clbit, c⟩, .conbit)

lemma conditionBits_cons (c : Nat) (clbits : List Nat) :
    conditionBits (c :: clbits) = (⟨.global, .clbit, c⟩, .conbit) :: conditionBits clbits := rfl

/-- The bits before the first unknown one. -/
def knownBits (g : Graph) (clbits : List Nat) : List Nat :=
  clbits.takeWhile fun c => g.knows ⟨.global, .clbit, c⟩

/-- What a call that fails leaves: the known bits of a condition outside of bodies are linked, up to
the first unknown one, and nothing else has changed. -/
def leftover (g : Graph) : Call → Graph
  | .condition id clbits _ _ =>
    if g.isTop (id % 4294967296) then
      g.linkAll (id % 4294967296) (conditionBits (g.knownBits clbits))
    else g
  | _ => g

section Link

variable {g g' : Graph} {v : Nat}

lemma knows_of_link? {leaf l : Leaf} {wire : Wire} (h : g.link? l v wire = some g') :
    g'.knows leaf = g.knows leaf := by
  have := g.knows_linkAll v [(l, wire)] leaf
  rwa [linkAll_cons, h] at this

/-- A condition that cannot be linked leaves the bits before the first unknown one linked. -/
lemma linkCondition_error {clbits : List Nat} {e : GraphError}
    (h : g.linkCondition v clbits = (g', .error e)) :
    g' = g.linkAll v (conditionBits (g.knownBits clbits)) := by
  induction clbits generalizing g with
  | nil => simp [linkCondition] at h
  | cons c clbits ih =>
    rw [linkCondition] at h
    split at h
    · next hlink =>
      obtain ⟨rfl, -⟩ := Prod.mk.inj h
      have hc : g.knows ⟨.global, .clbit, c⟩ = false := by
        simpa [link?, knows] using hlink
      simp [knownBits, hc, conditionBits, linkAll]
    · next g₁ hlink =>
      obtain ⟨u, hu, -⟩ := Option.map_eq_some_iff.mp hlink
      have hc : g.knows ⟨.global, .clbit, c⟩ = true := by simp [knows, hu]
      -- linking a bit makes no other one known
      have hsame : g₁.knownBits clbits = g.knownBits clbits := by
        simp only [knownBits, knows_of_link? hlink]
      have hcons : g.knownBits (c :: clbits) = c :: g.knownBits clbits := by
        simp [knownBits, hc]
      rw [ih h, hsame, hcons, conditionBits_cons, linkAll_cons, hlink]
      rfl

/-- Linking a known bit adds an edge. -/
lemma linkAll_ne {leaf : Leaf} {wire : Wire} {bits : List (Leaf × Wire)}
    (hknown : ∀ b ∈ (leaf, wire) :: bits, g.knows b.1) :
    g.linkAll v ((leaf, wire) :: bits) ≠ g := by
  intro h
  obtain ⟨u, hu⟩ := Option.isSome_iff_exists.mp (hknown _ List.mem_cons_self)
  have hsize := congrArg (fun g => g.edges.size) h
  rw [linkAll_eq hknown, wires, hu] at hsize
  simp at hsize

end Link

lemma addCondition_error {g g' : Graph} {id : Nat} {clbits : List Nat} {relation : Relation}
    {constant : Int} {e : GraphError}
    (h : g.addCondition id clbits relation constant = (g', .error e)) :
    g' = g.leftover (.condition id clbits relation constant) := by
  unfold addCondition at h
  simp only at h
  split at h
  · next hnode =>
    obtain ⟨rfl, -⟩ := Prod.mk.inj h
    simp [leftover, isTop, vertex?, hnode]
  · next node hnode =>
    split at h
    · next hop =>
      obtain ⟨rfl, -⟩ := Prod.mk.inj h
      have hop : node.vertex.operation? = none := by simpa using hop
      simp [leftover, isTop, vertex?, hnode, hop]
    · next hop =>
      split at h
      · simp at h
      · next hroot =>
        split at h
        · simp at h
        · next g₁ e' hlink =>
          obtain ⟨rfl, -⟩ := Prod.mk.inj h
          have htop : g.isTop (id % 4294967296) = true := by
            obtain ⟨o, ho⟩ := Option.ne_none_iff_exists'.mp (by simpa using hop)
            simp [isTop, vertex?, rootOf, hnode, hroot, ho]
          rw [leftover, if_pos htop]
          exact linkCondition_error hlink

/-- **What a call that fails leaves behind.** -/
lemma perform_error {g : Graph} {c : Call} {e : GraphError} (h : (g.perform c).2 = .error e) :
    (g.perform c).1 = g.leftover c := by
  cases c with
  | register r => simp [perform] at h
  | define name params qubits clbits => simp [perform] at h
  | op name params qubits clbits =>
    cases hadd : g.addOp name params qubits clbits with
    | ok p => simp [perform, hadd] at h
    | error e => simp [perform, hadd, leftover]
  | caller name params qubits clbits =>
    cases hadd : g.addCaller name params qubits clbits with
    | ok p => simp [perform, hadd] at h
    | error e => simp [perform, hadd, leftover]
  | callee name params qubits clbits pindex isCaller =>
    cases hadd : g.addCallee name params qubits clbits pindex isCaller with
    | ok p => simp [perform, hadd] at h
    | error e => simp [perform, hadd, leftover]
  | condition id clbits relation constant =>
    rcases hadd : g.addCondition id clbits relation constant with ⟨g', _ | _⟩
    · rw [← addCondition_error hadd, perform, hadd]
      rfl
    · simp [perform, hadd, Except.map] at h

/-- A condition leaves its mark when its first bit is known. -/
lemma leftover_condition_eq_iff {g : Graph} {id bit : Nat} {bits : List Nat} {relation : Relation}
    {constant : Int} (htop : g.isTop (id % 4294967296)) :
    g.leftover (.condition id (bit :: bits) relation constant) = g ↔
      g.knows ⟨.global, .clbit, bit⟩ = false := by
  rw [leftover, if_pos htop]
  cases hbit : g.knows ⟨.global, .clbit, bit⟩ with
  | false => simp [knownBits, hbit, conditionBits, linkAll]
  | true =>
    have hcons : g.knownBits (bit :: bits) = bit :: g.knownBits bits := by simp [knownBits, hbit]
    rw [hcons, conditionBits_cons]
    refine iff_of_false (linkAll_ne ?_) (by simp)
    rw [← conditionBits_cons, ← hcons]
    intro b hb
    obtain ⟨c, hc, rfl⟩ := List.mem_map.mp hb
    simpa using List.mem_takeWhile_imp hc

/-- **When a call that fails leaves the graph as it was.** Every call does, apart from a condition
on a gate or a call outside of bodies whose first bit is known; such a condition leaves the bits
before the first unknown one linked. -/
theorem failed_perform_eq_iff (cs : List Call) {c : Call} {e : GraphError}
    (h : ((empty.run cs).perform c).2 = .error e) :
    let g := empty.run cs
    (g.perform c).1 = g.leftover c ∧
      ((g.perform c).1 = g ↔ ∀ id bit bits relation constant,
        c = .condition id (bit :: bits) relation constant → g.isTop (id % 4294967296) →
          g.knows ⟨.global, .clbit, bit⟩ = false) := by
  intro g
  have hleft : (g.perform c).1 = g.leftover c := perform_error h
  refine ⟨hleft, ?_⟩
  rw [hleft]
  constructor
  · rintro heq id bit bits relation constant rfl htop
    exact (leftover_condition_eq_iff htop).mp heq
  · intro hfirst
    cases c with
    | condition id clbits relation constant =>
      by_cases htop : g.isTop (id % 4294967296)
      · cases clbits with
        | nil => simp [leftover, knownBits, conditionBits, linkAll]
        | cons bit bits =>
          exact (leftover_condition_eq_iff htop).mpr
            (hfirst id bit bits relation constant rfl htop)
      · simp [leftover, htop]
    | _ => rfl

/-! ### A condition on one known and one unknown bit -/

/-- A gate on the only qubit, and a classical bit. -/
def flipCalls : List Call :=
  [.register ⟨.qubit, 0, 1⟩, .register ⟨.clbit, 0, 1⟩, .op "X" [] [0] []]

/-- A condition that fails at its first bit changes nothing. -/
theorem condition_unknown_first :
    ((empty.run flipCalls).perform (.condition 4 [1, 0] .eq 1)).2 =
        .error (.unknownBit ⟨.global, .clbit, 1⟩ none) ∧
      ((empty.run flipCalls).perform (.condition 4 [1, 0] .eq 1)).1 = empty.run flipCalls := by
  refine ⟨rfl, (failed_perform_eq_iff flipCalls rfl).2.mpr ?_⟩
  rintro id bit bits relation constant hc -
  obtain ⟨-, hbits, -, -⟩ := Call.condition.inj hc
  obtain ⟨rfl, -⟩ := List.cons.inj hbits
  rfl

/-- One that fails at its second bit leaves the first one linked. -/
theorem condition_unknown_second :
    ((empty.run flipCalls).perform (.condition 4 [0, 1] .eq 1)).2 =
        .error (.unknownBit ⟨.global, .clbit, 1⟩ none) ∧
      ((empty.run flipCalls).perform (.condition 4 [0, 1] .eq 1)).1 ≠ empty.run flipCalls ∧
      (empty.run flipCalls).bitsInto 4 .conbit = [] ∧
      ((empty.run flipCalls).perform (.condition 4 [0, 1] .eq 1)).1.bitsInto 4 .conbit = [0] := by
  refine ⟨rfl, fun h => ?_, rfl, rfl⟩
  have hbits := congrArg (fun g => g.bitsInto 4 .conbit) h
  exact absurd hbits (by decide)

end QCircuit.Graph
