import Mathlib
import QCircuit.Proofs.Compile.CallStack
import QCircuit.Proofs.Graph.Atomicity

/-!
What the expansion of a call does to a schedule.

Gates are placed on the qubits of the call only, behind the cells that the rows have. Each gate is
under one condition: that of the call site, or else the outermost one on its call path.
-/

namespace QCircuit

/-! ### Call paths -/

namespace Graph

/-- The vertices from a body down to a gate, through the bodies that are called. -/
inductive CallPath (g : Graph) : Job → List Nat → Prop
  | call {name : String} {root : Nat} {path : List Nat} (found : g.findDefinition? name = some root)
      (body : CallPath g (.body (g.bodyFrom root)) path) : CallPath g (.call name) path
  | gate {v : Nat} {vs : List Nat} {op : Operation} (mem : v ∈ vs)
      (vertex : g.vertex? v = some (.callee op)) : CallPath g (.body vs) [v]
  | nested {v : Nat} {vs path : List Nat} {op : Operation} (mem : v ∈ vs)
      (vertex : g.vertex? v = some (.caller op)) (inside : CallPath g (.call op.name) path) :
      CallPath g (.body vs) (v :: path)

lemma CallPath.cons {g : Graph} {v : Nat} {vs path : List Nat} (h : g.CallPath (.body vs) path) :
    g.CallPath (.body (v :: vs)) path := by
  cases h with
  | gate mem vertex => exact .gate (List.mem_cons_of_mem _ mem) vertex
  | nested mem vertex inside => exact .nested (List.mem_cons_of_mem _ mem) vertex inside

def operation? (g : Graph) (v : Nat) : Option Operation := (g.vertex? v).bind Vertex.operation?

/-- Whether the operation of a vertex has a comparison. -/
def compares (g : Graph) (v : Nat) : Bool := (g.operation? v).any (·.comparison.isSome)

end Graph

/-- The condition that a gate is under: the one from outside, or else that of the outermost vertex
on its path that has a comparison, or else none. -/
def Placement.Guarded (g : Graph) (n : Numbering) (outside : Option Condition) (p : Placement) :
    Prop :=
  match outside, p.path.find? g.compares with
  | some condition, _ => p.gate.condition = some condition
  | none, some v => ∃ op condition, g.operation? v = some op ∧
      n.condition g v op = .ok (some condition) ∧ p.gate.condition = some condition
  | none, none => p.gate.condition = none

section Guards

variable {g : Graph} {n : Numbering} {v : Nat} {op : Operation} {c c' : CallContext}

lemma isSome_condition {condition : Option Condition} (h : n.condition g v op = .ok condition) :
    condition.isSome = op.comparison.isSome := by
  unfold Numbering.condition at h
  split at h
  · next hnone =>
    obtain rfl := Except.ok.inj h
    rw [hnone]
    rfl
  · next relation constant hsome =>
    obtain ⟨bits, -, h⟩ := bind_eq_ok.mp h
    obtain ⟨dense, -, h⟩ := bind_eq_ok.mp h
    obtain rfl := Except.ok.inj h
    rw [hsome]
    rfl

/-- One level further out the guard is the same. -/
lemma Placement.Guarded.below {p : Placement} (hop : g.operation? v = some op)
    (hinner : c.inner g n v op = .ok c') (h : p.Guarded g n c'.condition) :
    (p.below v).Guarded g n c.condition := by
  obtain ⟨-, -, hsome, hnone⟩ := inner_ok hinner
  have hcompares : g.compares v = op.comparison.isSome := by
    rw [Graph.compares, hop, Option.any_some]
  cases hc : c.condition with
  | some condition =>
    rw [hsome (by simp [hc]), hc] at h
    exact h
  | none =>
    have hcondition := hnone hc
    have hisSome := isSome_condition hcondition
    have hpath : (p.below v).path = v :: p.path := rfl
    unfold Guarded
    rcases hc' : c'.condition with _ | condition <;> rw [hc'] at hisSome hcondition h
    · rw [hpath, List.find?_cons_of_neg (by simp [hcompares, ← hisSome])]
      exact h
    · rw [hpath, List.find?_cons_of_pos (by simp [hcompares, ← hisSome])]
      exact ⟨op, condition, hop, hcondition, h⟩

end Guards

/-! ### Facts of a run -/

namespace Expands

variable {g : Graph} {n : Numbering} {job : Job} {c : CallContext} {x y : Expanding}
  {ps : List Placement}

/-- The schedule is that of the placements. -/
lemma runs (h : Expands g n job c x ps y) :
    Schedule.Runs x.schedule (ps.map Placement.placed) y.schedule := by
  induction h with
  | call found closed body ih => exact ih
  | nil c x => exact .nil _
  | gate vertex inner unitary operands placed rest ih => exact .cons placed ih
  | @nested v vs op c c' x y z ps qs vertex inner call rest ihc ihr =>
    have hbelow : (ps.map (.below v)).map Placement.placed = ps.map Placement.placed := by
      rw [List.map_map]
      rfl
    rw [List.map_append, hbelow]
    exact ihc.append ihr
  | other gate call rest ih => exact ih

/-- Gates are on the qubits of the call. -/
lemma qubits (h : Expands g n job c x ps y) :
    ∀ p ∈ ps, ∀ d ∈ p.gate.qubits, ∃ b ∈ c.qubits, ∃ v, n.dense .qubit v b = .ok d := by
  induction h with
  | call found closed body ih => exact ih
  | nil c x => simp
  | @gate v vs op c c' dense x y s slot ps vertex inner unitary operands placed rest ih =>
    refine List.forall_mem_cons.mpr ⟨fun d hd => ?_, ih⟩
    obtain ⟨b, hb, hdense⟩ := exists_of_mapM operands hd
    exact ⟨b, inner_subset inner b hb, v, hdense⟩
  | nested vertex inner call rest ihc ihr =>
    refine List.forall_mem_append.mpr ⟨List.forall_mem_map.mpr fun p hp d hd => ?_, ihr⟩
    obtain ⟨b, hb, hdense⟩ := ihc p hp d hd
    exact ⟨b, inner_subset inner b hb, hdense⟩
  | other gate call rest ih => exact ih

lemma paths (h : Expands g n job c x ps y) : ∀ p ∈ ps, g.CallPath job p.path := by
  induction h with
  | call found closed body ih => exact fun p hp => .call found (ih p hp)
  | nil c x => simp
  | gate vertex inner unitary operands placed rest ih =>
    exact List.forall_mem_cons.mpr
      ⟨.gate List.mem_cons_self vertex, fun p hp => (ih p hp).cons⟩
  | nested vertex inner call rest ihc ihr =>
    exact List.forall_mem_append.mpr ⟨List.forall_mem_map.mpr fun p hp =>
      .nested List.mem_cons_self vertex (ihc p hp), fun p hp => (ihr p hp).cons⟩
  | other gate call rest ih => exact fun p hp => (ih p hp).cons

/-- **The outermost condition guards every gate.** -/
theorem guarded (h : Expands g n job c x ps y) : ∀ p ∈ ps, p.Guarded g n c.condition := by
  induction h with
  | call found closed body ih => exact ih
  | nil c x => simp
  | @gate v vs op c c' dense x y s slot ps vertex inner unitary operands placed rest ih =>
    have hown : Placement.Guarded g n c'.condition
        ⟨[], .named op.name dense c'.params c'.condition, slot⟩ := by
      unfold Placement.Guarded
      cases c'.condition <;> rfl
    exact List.forall_mem_cons.mpr ⟨hown.below (by simp [Graph.operation?, vertex,
      Vertex.operation?]) inner, ih⟩
  | nested vertex inner call rest ihc ihr =>
    exact List.forall_mem_append.mpr ⟨List.forall_mem_map.mpr fun p hp =>
      (ihc p hp).below (by simp [Graph.operation?, vertex, Vertex.operation?]) inner, ihr⟩
  | other gate call rest ih => exact ih

end Expands

/-! ### Expanded calls -/

/-- What placements have to do with a call of `name` and with the schedules before and after it. -/
structure Expansion (g : Graph) (n : Numbering) (name : String) (c : CallContext) (s s' : Schedule)
    (ps : List Placement) : Prop where
  runs : s.Runs (ps.map Placement.placed) s'
  /-- The row of a qubit that the call does not have stays as it is. -/
  frame (q : Nat) : (∀ b ∈ c.qubits, ∀ v, n.dense .qubit v b ≠ .ok q) → s'.rows[q]? = s.rows[q]?
  /-- All rows keep their cells; the gates behind them were placed or fill them up. -/
  growth : Schedule.Extends (fun x => (∃ p ∈ ps, x = p.gate) ∨ Schedule.Filling x) s.rows s'.rows
  paths : ∀ p ∈ ps, g.CallPath (.call name) p.path
  guarded : ∀ p ∈ ps, p.Guarded g n c.condition

lemma Expands.expansion {g : Graph} {n : Numbering} {name : String} {c : CallContext}
    {x y : Expanding} {ps : List Placement} (h : Expands g n (.call name) c x ps y) :
    Expansion g n name c x.schedule y.schedule ps := by
  have hunitary : ∀ k ∈ ps.map Placement.placed, k.1.isMeasurement = false :=
    List.forall_mem_map.mpr fun p hp => rfl
  refine ⟨h.runs, fun q hq => ?_, ?_, h.paths, h.guarded⟩
  · refine h.runs.frame hunitary (List.forall_mem_map.mpr fun p hp hmem => ?_)
    obtain ⟨b, hb, v, hdense⟩ := h.qubits p hp q hmem
    exact hq b hb v hdense
  · refine (h.runs.rows_extend hunitary).mono fun x => Or.imp_left ?_
    rintro ⟨k, hk, hx⟩
    obtain ⟨p, hp, rfl⟩ := List.mem_map.mp hk
    exact ⟨p, hp, List.mem_singleton.mp hx⟩

/-- **Frame and guard of an expanded call.** A call that can be expanded runs on its call stack, and
however it runs, the stack is in the end as it was and the schedule is the one that comes back, with
the greatest slot of the gates; rows of other qubits are as before, the others keep their cells, and
each gate is under the condition of the call or else the outermost one on its path. -/
theorem expandCall_expansion {g : Graph} {n : Numbering} {stack : List String} {site : Nat}
    {name : String} {c : CallContext} {s s' : Schedule} {slot : Nat}
    (h : expandCall g n (g.idle stack) site name c s = .ok (s', slot)) :
    (∃ ps, Expands g n (.call name) c ⟨stack, s⟩ ps ⟨stack, s'⟩) ∧
      ∀ ps y, Expands g n (.call name) c ⟨stack, s⟩ ps y → y = ⟨stack, s'⟩ ∧
        slot = Placement.top ps ∧ Expansion g n name c s s' ps := by
  obtain ⟨ps, hps, -⟩ := expandCall_iff.mp h
  refine ⟨⟨ps, hps⟩, fun ps y hrun => ?_⟩
  obtain ⟨hschedule, hslot⟩ := Prod.mk.inj (Except.ok.inj (h.symm.trans (hrun.gives site)))
  obtain rfl : y = ⟨stack, s'⟩ := by
    cases y
    congr
    · exact hrun.stack_eq
    · exact hschedule.symm
  exact ⟨rfl, hslot, hrun.expansion⟩

/-- A body with a gate and, under a condition, a call of another body. -/
def Graph.nestedFlip : Graph :=
  Graph.empty.run [.register ⟨.qubit, 0, 3⟩, .register ⟨.clbit, 0, 1⟩, .define "flip" 0 1 0,
    .callee "X" [] [0] [] [] false, .define "pair" 0 2 0, .callee "H" [] [0] [] [] false,
    .callee "flip" [] [1] [] [] true, .caller "pair" [] [2, 1] [], .condition 10 [0] .eq 1]

theorem nestedFlip_expansion :
    ∃ n s s', Numbering.ofVertices Graph.nestedFlip (List.range 12) = .ok n ∧
      s.rows = [[.reserved], [.reserved], []] ∧
      expandCall Graph.nestedFlip n Graph.nestedFlip.definedNames 11 "pair" ⟨[2, 1], [], none⟩ s =
        .ok (s', 1) ∧
      s'.rows = [[.reserved],
        [.reserved, .gate { kind := .standard .x, qubits := [1], condition := some ⟨[0], .eq, 1⟩ }],
        [.gate { kind := .standard .h, qubits := [2] }]] ∧
      ∃ ps, Expands Graph.nestedFlip n (.call "pair") ⟨[2, 1], [], none⟩ ⟨[], s⟩ ps ⟨[], s'⟩ ∧
        Placement.top ps = 1 ∧
          Expansion Graph.nestedFlip n "pair" ⟨[2, 1], [], none⟩ s s' ps := by
  obtain ⟨n, hn⟩ : ∃ n : Numbering, n = ⟨⟨[(2, 2), (1, 1), (0, 0)], 3⟩, ⟨[(0, 0)], 1⟩, 3, 1⟩ :=
    ⟨_, rfl⟩
  obtain ⟨s, hs⟩ : ∃ s : Schedule, s = ⟨[[.reserved], [.reserved], []]⟩ := ⟨_, rfl⟩
  obtain ⟨s', hs'⟩ : ∃ s' : Schedule, s' = ⟨[[.reserved],
      [.reserved, .gate { kind := .standard .x, qubits := [1], condition := some ⟨[0], .eq, 1⟩ }],
      [.gate { kind := .standard .h, qubits := [2] }]]⟩ := ⟨_, rfl⟩
  have hnumbering : Numbering.ofVertices Graph.nestedFlip (List.range 12) = .ok n := by
    rw [hn]
    cbv
  have hexpand : expandCall Graph.nestedFlip n Graph.nestedFlip.definedNames 11 "pair"
      ⟨[2, 1], [], none⟩ s = .ok (s', 1) := by
    rw [hn, hs, hs']
    cbv
  obtain ⟨⟨ps, hps⟩, hruns⟩ := expandCall_expansion (Graph.idle_nil _ ▸ hexpand)
  obtain ⟨-, htop, hexpansion⟩ := hruns ps _ hps
  exact ⟨n, s, s', hnumbering, hs ▸ rfl, hexpand, hs' ▸ rfl, ps, hps, htop.symm, hexpansion⟩

end QCircuit
