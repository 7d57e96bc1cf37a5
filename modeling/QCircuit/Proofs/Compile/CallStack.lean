import QCircuit.Proofs.Compile.Raising
import QCircuit.Proofs.Schedule.Growth

/-!
Expansion with a call stack.

While a call is expanded its name lies on a stack, and a name on the stack cannot be called. Gates
are placed along call paths: from a vertex of the called body through calls to the vertex of the
gate. The outermost condition on the way, from the call site on, is that of the gate.
-/

namespace QCircuit

/-! ### Runs of the expansion -/

/-- The names of the bodies that are open, the innermost first, and the schedule so far. -/
structure Expanding where
  stack : List String
  schedule : Schedule

namespace Expanding

def push (name : String) (x : Expanding) : Expanding := { x with stack := name :: x.stack }

def pop (x : Expanding) : Expanding := { x with stack := x.stack.tail }

end Expanding

/-- A gate with the vertices that lead to it, the outermost first, and its slot. -/
structure Placement where
  path : List Nat
  gate : Gate
  slot : Nat

namespace Placement

def below (v : Nat) (p : Placement) : Placement := { p with path := v :: p.path }

/-- The call of the scheduler that placed the gate, with its slot. -/
def placed (p : Placement) : Schedule.Call × Nat := (.unitary p.gate, p.slot)

/-- The greatest slot of placements. -/
def top (ps : List Placement) : Nat := (ps.map (·.slot)).foldl max 0

end Placement

/-- What is expanded: a call, or the vertices of a body that are left. -/
inductive Job where
  | call (name : String)
  | body (vs : List Nat)

/-- How a job is done, with the gates that it places. -/
inductive Expands (g : Graph) (n : Numbering) :
    Job → CallContext → Expanding → List Placement → Expanding → Prop
  | call {name : String} {root : Nat} {c : CallContext} {x y : Expanding} {ps : List Placement}
      (found : g.findDefinition? name = some root) (closed : name ∉ x.stack)
      (body : Expands g n (.body (g.bodyFrom root)) c (x.push name) ps y) :
      Expands g n (.call name) c x ps y.pop
  | nil (c : CallContext) (x : Expanding) : Expands g n (.body []) c x [] x
  | gate {v : Nat} {vs : List Nat} {op : Operation} {c c' : CallContext} {dense : List Nat}
      {x y : Expanding} {s : Schedule} {slot : Nat} {ps : List Placement}
      (vertex : g.vertex? v = some (.callee op)) (inner : c.inner g n v op = .ok c')
      (unitary : (Gate.Kind.ofName op.name).isMeasure = false)
      (operands : c'.qubits.mapM (n.dense .qubit v) = .ok dense)
      (placed : x.schedule.place (.named op.name dense c'.params c'.condition) = .ok (s, slot))
      (rest : Expands g n (.body vs) c { x with schedule := s } ps y) :
      Expands g n (.body (v :: vs)) c x
        (⟨[v], .named op.name dense c'.params c'.condition, slot⟩ :: ps) y
  | nested {v : Nat} {vs : List Nat} {op : Operation} {c c' : CallContext} {x y z : Expanding}
      {ps qs : List Placement} (vertex : g.vertex? v = some (.caller op))
      (inner : c.inner g n v op = .ok c') (call : Expands g n (.call op.name) c' x ps y)
      (rest : Expands g n (.body vs) c y qs z) :
      Expands g n (.body (v :: vs)) c x (ps.map (.below v) ++ qs) z
  | other {v : Nat} {vs : List Nat} {c : CallContext} {x y : Expanding} {ps : List Placement}
      (gate : ∀ op, g.vertex? v ≠ some (.callee op)) (call : ∀ op, g.vertex? v ≠ some (.caller op))
      (rest : Expands g n (.body vs) c x ps y) : Expands g n (.body (v :: vs)) c x ps y

namespace Placement

open List

lemma top_cons (p : Placement) (ps : List Placement) : top (p :: ps) = max p.slot (top ps) := by
  rw [top, map_cons, foldl_cons, Nat.max_comm, foldl_assoc]
  rfl

lemma top_append (ps qs : List Placement) : top (ps ++ qs) = max (top ps) (top qs) := by
  induction ps with
  | nil => exact (Nat.zero_max _).symm
  | cons p ps ih => rw [cons_append, top_cons, top_cons, ih, Nat.max_assoc]

lemma top_below (v : Nat) (ps : List Placement) : top (ps.map (below v)) = top ps := by
  rw [top, map_map]
  rfl

end Placement

/-- The names that can be called while those on the stack are open. -/
def Graph.idle (g : Graph) (stack : List String) : List String :=
  g.definedNames.filter (· ∉ stack)

section Runs

variable {g : Graph} {n : Numbering} {stack : List String}

lemma Graph.mem_idle {name : String} {root : Nat} (hroot : g.findDefinition? name = some root) :
    name ∈ g.idle stack ↔ name ∉ stack := by
  simp [Graph.idle, Graph.mem_definedNames hroot]

/-- Outside of all bodies every defined name can be called. -/
lemma Graph.idle_nil (g : Graph) : g.idle [] = g.definedNames := by
  simp [Graph.idle]

lemma Graph.idle_cons (g : Graph) (name : String) (stack : List String) :
    g.idle (name :: stack) = (g.idle stack).erase name := by
  have hnodup : (g.idle stack).Nodup := (Graph.eraseDups_nodup _).filter _
  rw [hnodup.erase_eq_filter, Graph.idle, Graph.idle, List.filter_filter]
  refine List.filter_congr fun s _ => ?_
  by_cases hs : s = name <;> simp [hs]

/-- **The call stack is in the end as it was.** -/
theorem Expands.stack_eq {job : Job} {c : CallContext} {x y : Expanding} {ps : List Placement}
    (h : Expands g n job c x ps y) : y.stack = x.stack := by
  induction h with
  | call found closed body ih => exact congrArg List.tail ih
  | nil c x => rfl
  | gate vertex inner unitary operands placed rest ih => exact ih
  | nested vertex inner call rest ihc ihr => exact ihr.trans ihc
  | other gate call rest ih => exact ih

/-! ### Runs and results -/

/-- The placements of a body, if every call that succeeds has some. -/
lemma exists_expands_body {idle : List String}
    (hcall : ∀ site name c s s' slot, expandCall g n idle site name c s = .ok (s', slot) →
      ∃ ps, Expands g n (.call name) c ⟨stack, s⟩ ps ⟨stack, s'⟩ ∧ slot = Placement.top ps)
    {c : CallContext} {vs : List Nat} {s s' : Schedule} {top slot : Nat}
    (h : expandBody g n idle c vs s top = .ok (s', slot)) :
    ∃ ps, Expands g n (.body vs) c ⟨stack, s⟩ ps ⟨stack, s'⟩ ∧
      slot = max top (Placement.top ps) := by
  induction vs generalizing s top with
  | nil =>
    rw [expandBody] at h
    obtain ⟨rfl, rfl⟩ := Prod.mk.inj (Except.ok.inj h)
    exact ⟨[], .nil c _, (Nat.max_zero _).symm⟩
  | cons v vs ih =>
    rw [expandBody] at h
    split at h
    · next op hvertex =>
      obtain ⟨c', hc', h⟩ := bind_eq_ok.mp h
      obtain ⟨⟨s₁, slot₁⟩, hplace, h⟩ := bind_eq_ok.mp h
      obtain ⟨ps, hps, rfl⟩ := ih h
      unfold Schedule.placeInBody at hplace
      split at hplace
      · simp at hplace
      · next hunitary =>
        obtain ⟨dense, hdense, hplace⟩ := bind_eq_ok.mp hplace
        refine ⟨_, .gate hvertex hc' (by simpa using hunitary) hdense hplace hps, ?_⟩
        rw [Placement.top_cons, Nat.max_assoc]
    · next op hvertex =>
      obtain ⟨c', hc', h⟩ := bind_eq_ok.mp h
      obtain ⟨⟨s₁, slot₁⟩, hexpand, h⟩ := bind_eq_ok.mp h
      obtain ⟨qs, hqs, rfl⟩ := ih h
      obtain ⟨ps, hps, rfl⟩ := hcall _ _ _ _ _ _ hexpand
      refine ⟨_, .nested hvertex hc' hps hqs, ?_⟩
      rw [Placement.top_append, Placement.top_below, Nat.max_assoc]
    · next hgate hcaller =>
      obtain ⟨ps, hps, hslot⟩ := ih h
      exact ⟨ps, .other hgate hcaller hps, hslot⟩

lemma exists_expands {idle : List String} (hidle : g.idle stack = idle) {site : Nat} {name : String}
    {c : CallContext} {s s' : Schedule} {slot : Nat}
    (h : expandCall g n idle site name c s = .ok (s', slot)) :
    ∃ ps, Expands g n (.call name) c ⟨stack, s⟩ ps ⟨stack, s'⟩ ∧ slot = Placement.top ps := by
  induction idle using idle_induct generalizing stack site name c s s' slot with
  | call idle ih =>
    rw [expandCall] at h
    split at h
    · simp at h
    · next root hroot =>
      split at h
      · next hmem =>
        have hpush : g.idle (name :: stack) = idle.erase name := hidle ▸ g.idle_cons name stack
        obtain ⟨ps, hps, rfl⟩ :=
          exists_expands_body (fun _ _ _ _ _ _ hcall => ih name hmem hpush hcall) h
        rw [← hidle, g.mem_idle hroot] at hmem
        have hrun := Expands.call (x := ⟨stack, s⟩) hroot hmem hps
        exact ⟨ps, hrun, Nat.zero_max _⟩
      · simp at h

/-- What the expansion answers to a job. -/
def Job.Gives (g : Graph) (n : Numbering) (c : CallContext) (stack : List String)
    (s s' : Schedule) (slot : Nat) : Job → Prop
  | .call name => ∀ site, expandCall g n (g.idle stack) site name c s = .ok (s', slot)
  | .body vs => ∀ top, expandBody g n (g.idle stack) c vs s top = .ok (s', max top slot)

lemma Expands.gives {job : Job} {c : CallContext} {x y : Expanding} {ps : List Placement}
    (h : Expands g n job c x ps y) :
    job.Gives g n c x.stack x.schedule y.schedule (Placement.top ps) := by
  induction h with
  | @call name root c x y ps found closed body ih =>
    intro site
    have hmem := (g.mem_idle found).mpr closed
    have hbody := ih 0
    rw [Nat.zero_max] at hbody
    rw [expandCall, found]
    simp only [hmem, dite_true]
    rw [← g.idle_cons]
    exact hbody
  | nil c x =>
    intro top
    rw [expandBody, Placement.top, List.map_nil, List.foldl_nil, Nat.max_zero]
  | @gate v vs op c c' dense x y s slot ps vertex inner unitary operands placed rest ih =>
    intro top
    have hplace : x.schedule.placeInBody n v op c' = .ok (s, slot) := by
      rw [Schedule.placeInBody, if_neg (by simp [unitary])]
      exact bind_eq_ok.mpr ⟨dense, operands, placed⟩
    rw [expandBody, vertex]
    refine bind_eq_ok.mpr ⟨c', inner, bind_eq_ok.mpr ⟨(s, slot), hplace, ?_⟩⟩
    rw [Placement.top_cons, ← Nat.max_assoc]
    exact ih (max top slot)
  | @nested v vs op c c' x y z ps qs vertex inner call rest ihc ihr =>
    intro top
    rw [expandBody, vertex]
    refine bind_eq_ok.mpr ⟨c', inner, bind_eq_ok.mpr ⟨_, ihc v, ?_⟩⟩
    rw [Placement.top_append, Placement.top_below, ← Nat.max_assoc, ← call.stack_eq]
    exact ihr _
  | @other v vs c x y ps gate call rest ih =>
    intro top
    rw [expandBody]
    split
    · next op hvertex => exact absurd hvertex (gate op)
    · next op hvertex => exact absurd hvertex (call op)
    · exact ih top

/-- **Expanding a call is running it on the call stack.** -/
theorem expandCall_iff {site : Nat} {name : String} {c : CallContext} {s s' : Schedule}
    {slot : Nat} : expandCall g n (g.idle stack) site name c s = .ok (s', slot) ↔
      ∃ ps, Expands g n (.call name) c ⟨stack, s⟩ ps ⟨stack, s'⟩ ∧ slot = Placement.top ps := by
  constructor
  · exact exists_expands rfl
  · rintro ⟨ps, hps, rfl⟩
    exact hps.gives site

end Runs

end QCircuit
