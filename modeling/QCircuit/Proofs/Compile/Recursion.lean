import Mathlib
import QCircuit.Proofs.Compile.CallStack
import QCircuit.Proofs.Compile.Failures
import QCircuit.Proofs.Graph.Atomicity

/-!
Definitions that call each other.

An expansion knows only the names that are open, and a search for condition bits only those that it
has seen. Both end, as no name is opened twice at a time. Expansion succeeds only where the names
that can be called from the first one form no cycle, and a call is refused only on such a cycle.
-/

namespace QCircuit

/-! ### Expansion, one vertex at a time -/

/-- A body that is open: what its call handed to it, the vertices that are left, and the greatest
slot so far. -/
structure OpenBody where
  name : String
  context : CallContext
  left : List Nat
  top : Nat

/-- An expansion in the innermost open body, with the bodies that wait for it, or its answer. -/
inductive Unfolding where
  | running (body : OpenBody) (callers : List OpenBody) (s : Schedule)
  | ended (answer : Except CompileError (Schedule × Nat))

namespace Unfolding

/-- The names that are open, the innermost first; `outer` were open before. -/
def stack (outer : List String) : Unfolding → List String
  | .running body callers _ => (body :: callers).map (·.name) ++ outer
  | .ended _ => outer

/-- Goes on in the body that waits for an answer. -/
def resume (callers : List OpenBody) (answer : Except CompileError (Schedule × Nat)) : Unfolding :=
  match callers, answer with
  | body :: callers, .ok (s, slot) => .running { body with top := max body.top slot } callers s
  | _, answer => .ended answer

/-- Opens the body of `name`, unless it is open already. -/
def enter (g : Graph) (outer : List String) (callers : List OpenBody) (site : Nat) (name : String)
    (c : CallContext) (s : Schedule) : Unfolding :=
  match g.findDefinition? name with
  | none => .ended (.error (.expansion site name .undefined))
  | some root =>
    if name ∈ callers.map (·.name) ++ outer then .ended (.error (.expansion site name .recursive))
    else .running ⟨name, c, g.bodyFrom root, 0⟩ callers s

/-- Deals with the next vertex of the innermost body. -/
def step (g : Graph) (n : Numbering) (outer : List String) : Unfolding → Unfolding
  | .ended answer => .ended answer
  | .running body callers s =>
    match body.left with
    | [] => resume callers (.ok (s, body.top))
    | v :: left =>
      let callers' := { body with left } :: callers
      match g.vertex? v with
      | some (.callee op) =>
        resume callers' (do s.placeInBody n v op (← body.context.inner g n v op))
      | some (.caller op) =>
        match body.context.inner g n v op with
        | .ok c => enter g outer callers' v op.name c s
        | .error e => .ended (.error e)
      | _ => .running { body with left } callers s

section Step

variable {g : Graph} {n : Numbering} {outer : List String}

@[simp] lemma resume_error (callers : List OpenBody) (e : CompileError) :
    resume callers (.error e) = .ended (.error e) := by
  cases callers <;> rfl

/-- Some steps lead from one state to the other. -/
def Leads (g : Graph) (n : Numbering) (outer : List String) (x y : Unfolding) : Prop :=
  ∃ k, (step g n outer)^[k] x = y

lemma Leads.trans {x y z : Unfolding} (hxy : Leads g n outer x y) (hyz : Leads g n outer y z) :
    Leads g n outer x z := by
  obtain ⟨j, rfl⟩ := hxy
  obtain ⟨k, rfl⟩ := hyz
  exact ⟨k + j, Function.iterate_add_apply _ k j x⟩

lemma Leads.head {x y : Unfolding} (h : Leads g n outer (step g n outer x) y) :
    Leads g n outer x y :=
  .trans ⟨1, rfl⟩ h

/-- A body comes back with what its expansion answers, if the calls in it do. -/
lemma leads_body {names : List String}
    (hcall : ∀ callers site name c s, callers.map (·.name) ++ outer = names →
      Leads g n outer (enter g outer callers site name c s)
        (resume callers (expandCall g n (g.idle names) site name c s)))
    {body : OpenBody} {callers : List OpenBody} {s : Schedule}
    (hnames : (body :: callers).map (·.name) ++ outer = names) :
    Leads g n outer (.running body callers s)
      (resume callers (expandBody g n (g.idle names) body.context body.left s body.top)) := by
  obtain ⟨bname, context, left, top⟩ := body
  induction left generalizing s top with
  | nil =>
    rw [expandBody]
    exact ⟨1, rfl⟩
  | cons v left ih =>
    -- the rest of the body, once the first vertex has its answer
    have hrest : ∀ answer : Except CompileError (Schedule × Nat),
        Leads g n outer (resume (⟨bname, context, left, top⟩ :: callers) answer)
          (resume callers (answer >>= fun p =>
            expandBody g n (g.idle names) context left p.1 (max top p.2))) := by
      intro answer
      cases answer with
      | error e =>
        rw [resume_error]
        exact ⟨0, by simp [bind, Except.bind]⟩
      | ok p => exact ih (max top p.2) hnames
    refine Leads.head ?_
    rw [expandBody]
    simp only [step]
    rcases g.vertex? v with _ | vertex
    · exact ih top hnames
    cases vertex with
    | callee op =>
      have hfirst := hrest (context.inner g n v op >>= fun c' => s.placeInBody n v op c')
      rw [bind_assoc] at hfirst
      exact hfirst
    | caller op =>
      cases hinner : context.inner g n v op with
      | error e =>
        simp only [hinner]
        exact ⟨0, by simp [bind, Except.bind]⟩
      | ok c' =>
        simp only [hinner]
        exact (hcall (⟨bname, context, left, top⟩ :: callers) v op.name c' s hnames).trans
          (hrest (expandCall g n (g.idle names) v op.name c' s))
    | _ => exact ih top hnames

/-- **An expansion ends with its answer**, whichever names are open. -/
lemma leads_call (callers : List OpenBody) (site : Nat) (name : String) (c : CallContext)
    (s : Schedule) : Leads g n outer (enter g outer callers site name c s)
      (resume callers
        (expandCall g n (g.idle (callers.map (·.name) ++ outer)) site name c s)) := by
  generalize hidle : g.idle (callers.map OpenBody.name ++ outer) = idle
  induction idle using idle_induct generalizing callers site name c s with
  | call idle ih =>
    rw [enter, expandCall]
    cases hroot : g.findDefinition? name with
    | none => exact ⟨0, by simp⟩
    | some root =>
      have hmem : name ∈ g.idle (callers.map OpenBody.name ++ outer) ↔
        name ∉ callers.map OpenBody.name ++ outer := g.mem_idle hroot
      rw [hidle] at hmem
      by_cases hopen : name ∈ callers.map OpenBody.name ++ outer
      · have hno : name ∉ idle := fun h => hmem.mp h hopen
        exact ⟨0, by simp [hopen, hno]⟩
      · have hyes := hmem.mpr hopen
        have herase : idle.erase name = g.idle (name :: (callers.map OpenBody.name ++ outer)) :=
          hidle ▸ (g.idle_cons name _).symm
        simp only [hopen, hyes, if_false, dite_true, herase]
        have hnames :
            ((⟨name, c, g.bodyFrom root, 0⟩ : OpenBody) :: callers).map (·.name) ++ outer =
              name :: (callers.map OpenBody.name ++ outer) := rfl
        refine leads_body (fun callers' site' name' c' s' hnames' => ?_) hnames
        rw [← herase]
        exact ih name hyes callers' site' name' c' s' (by rw [hnames', herase])

lemma nodup_outer {x : Unfolding} (h : (x.stack outer).Nodup) : outer.Nodup := by
  cases x with
  | running body callers s => exact (List.nodup_append.mp h).2.1
  | ended answer => exact h

lemma nodup_resume {callers : List OpenBody} {answer : Except CompileError (Schedule × Nat)}
    (h : (callers.map (·.name) ++ outer).Nodup) : ((resume callers answer).stack outer).Nodup := by
  have houter := (List.nodup_append.mp h).2.1
  cases callers with
  | nil => exact houter
  | cons body callers =>
    cases answer with
    | error e => exact houter
    | ok p => exact h

lemma nodup_enter (callers : List OpenBody) (h : (callers.map (·.name) ++ outer).Nodup) (site : Nat)
    (name : String) (c : CallContext) (s : Schedule) :
    ((enter g outer callers site name c s).stack outer).Nodup := by
  have houter := (List.nodup_append.mp h).2.1
  unfold enter
  split
  · exact houter
  · split
    · exact houter
    · next hopen => exact List.nodup_cons.mpr ⟨hopen, h⟩

/-- **No step opens a name that is open.** -/
lemma nodup_step {x : Unfolding} (h : (x.stack outer).Nodup) :
    ((step g n outer x).stack outer).Nodup := by
  have houter := nodup_outer h
  unfold step
  split
  · exact houter
  · next body callers s =>
    split
    · exact nodup_resume (List.nodup_cons.mp h).2
    · next v left hleft =>
      simp only
      split
      · exact nodup_resume h
      · split
        · exact nodup_enter ({ body with left } :: callers) h _ _ _ _
        · exact houter
      · exact h

lemma nodup_iterate {x : Unfolding} (h : (x.stack outer).Nodup) (k : Nat) :
    (((step g n outer)^[k] x).stack outer).Nodup := by
  induction k with
  | zero => exact h
  | succ k ih =>
    rw [Function.iterate_succ_apply']
    exact nodup_step ih

end Step

end Unfolding

/-! ### The search for condition bits -/

/-- A search for condition bits: the names that were opened so far, what is left to open, and the
bits found. -/
structure Scan where
  seen : List String
  agenda : List Graph.Lookup
  bits : List Nat

namespace Scan

/-- Opens a name that was not opened before, or looks at a vertex. -/
def step (g : Graph) (x : Scan) : Scan :=
  match x.agenda with
  | [] => x
  | .name s :: agenda =>
    if s ∈ x.seen then { x with agenda }
    else { x with seen := s :: x.seen, agenda := (g.bodyOf s).map .vertex ++ agenda }
  | .vertex v :: agenda =>
    { x with agenda := g.opens v ++ agenda, bits := x.bits ++ g.bitsInto v .conbit }

/-- **The search ends with the bits that are collected**, whichever names were opened before. -/
lemma iterate_step (g : Graph) (x : Scan) : ∃ k seen,
    (step g)^[k] x = ⟨seen, [], g.collect (g.idle x.seen) x.agenda x.bits⟩ := by
  obtain ⟨seen, agenda, bits⟩ := x
  -- a step, and what follows it
  have hstep : ∀ {y : Scan} {out : List Nat},
      (∃ k seen, (step g)^[k] (step g y) = ⟨seen, [], out⟩) →
      ∃ k seen, (step g)^[k] y = ⟨seen, [], out⟩ := by
    rintro y out ⟨k, seen, h⟩
    exact ⟨k + 1, seen, h⟩
  simp only
  generalize hidle : g.idle seen = idle
  fun_induction Graph.collect g idle agenda bits generalizing seen with
  | case1 idle bits => exact ⟨0, seen, rfl⟩
  | case2 idle bits v agenda ih => exact hstep (ih seen hidle)
  | case3 idle bits s agenda hs _ ih =>
    have hnew : s ∉ seen := by
      subst hidle
      simpa using (List.mem_filter.mp hs).2
    refine hstep ?_
    have hstep' : step g ⟨seen, .name s :: agenda, bits⟩ =
        ⟨s :: seen, (g.bodyOf s).map .vertex ++ agenda, bits⟩ := by simp [step, hnew]
    rw [hstep']
    exact ih (s :: seen) (hidle ▸ g.idle_cons s seen)
  | case4 idle bits s agenda hs ih =>
    refine hstep ?_
    by_cases hold : s ∈ seen
    · have hstep' : step g ⟨seen, .name s :: agenda, bits⟩ = ⟨seen, agenda, bits⟩ := by
        simp [step, hold]
      rw [hstep']
      exact ih seen hidle
    · -- a name without definition has no body
      have hnone : g.findDefinition? s = none := by
        by_contra hsome
        obtain ⟨root, hroot⟩ := Option.ne_none_iff_exists'.mp hsome
        exact hs (hidle ▸ (g.mem_idle hroot).mpr hold)
      have hstep' : step g ⟨seen, .name s :: agenda, bits⟩ = ⟨s :: seen, agenda, bits⟩ := by
        simp [step, hold, Graph.bodyOf, hnone]
      rw [hstep']
      refine ih (s :: seen) ?_
      rw [g.idle_cons, hidle, List.erase_of_not_mem hs]

end Scan

/-! ### Cycles of names -/

namespace Graph

/-- The body of one name calls the other. -/
def Calls (g : Graph) (a b : String) : Prop :=
  ∃ v ∈ g.bodyOf a, ∃ o, g.vertex? v = some (.caller o) ∧ o.name = b

/-- Some name that can be called from this one can be called from itself. -/
def Recursive (g : Graph) (name : String) : Prop :=
  ∃ t, Relation.ReflTransGen g.Calls name t ∧ Relation.TransGen g.Calls t t

end Graph

/-- Nothing that a job calls is open, or can be called from itself. -/
def Job.Sound (g : Graph) (stack : List String) : Job → Prop
  | .call name => ∀ t, Relation.ReflTransGen g.Calls name t →
      t ∉ stack ∧ ¬ Relation.TransGen g.Calls t t
  | .body vs => ∀ v ∈ vs, ∀ o, g.vertex? v = some (.caller o) →
      ∀ t, Relation.ReflTransGen g.Calls o.name t → t ∉ stack ∧ ¬ Relation.TransGen g.Calls t t

lemma Expands.sound {g : Graph} {n : Numbering} {job : Job} {c : CallContext} {x y : Expanding}
    {ps : List Placement} (h : Expands g n job c x ps y) : job.Sound g x.stack := by
  induction h with
  | @call name root c x y ps found closed body ih =>
    -- what the body calls is neither open nor the name itself
    have hbody : ∀ b, g.Calls name b → ∀ t, Relation.ReflTransGen g.Calls b t →
        (t ≠ name ∧ t ∉ x.stack) ∧ ¬ Relation.TransGen g.Calls t t := by
      rintro b ⟨v, hv, o, ho, rfl⟩ t ht
      rw [Graph.bodyOf_eq found] at hv
      obtain ⟨hopen, hcycle⟩ := ih v hv o ho t ht
      exact ⟨by simpa [Expanding.push] using hopen, hcycle⟩
    intro t ht
    rcases Relation.ReflTransGen.cases_head ht with rfl | ⟨b, hb, ht⟩
    · refine ⟨closed, fun hcycle => ?_⟩
      obtain ⟨b, hb, hback⟩ := Relation.TransGen.head'_iff.mp hcycle
      exact (hbody b hb _ hback).1.1 rfl
    · obtain ⟨⟨-, hopen⟩, hcycle⟩ := hbody b hb t ht
      exact ⟨hopen, hcycle⟩
  | nil c x => exact fun v hv => by simp at hv
  | gate vertex inner unitary operands placed rest ih =>
    intro w hw o ho
    rcases List.mem_cons.mp hw with rfl | hw
    · simp [vertex] at ho
    · exact ih w hw o ho
  | nested vertex inner call rest ihc ihr =>
    intro w hw o ho
    rcases List.mem_cons.mp hw with rfl | hw
    · obtain rfl := Vertex.caller.inj (Option.some.inj (vertex.symm.trans ho))
      exact ihc
    · rw [call.stack_eq] at ihr
      exact ihr w hw o ho
  | other gate call rest ih =>
    intro w hw o ho
    rcases List.mem_cons.mp hw with rfl | hw
    · exact absurd ho (call o)
    · exact ih w hw o ho

lemma Numbering.condition_ne_recursive {g : Graph} {n : Numbering} {v w : Nat} {op : Operation}
    {t : String} : n.condition g v op ≠ .error (.expansion w t .recursive) := by
  intro h
  rcases condition_eq_error h with ⟨fault, -, he⟩ | ⟨-, -, b, -, hb⟩
  · simp at he
  · rcases dense_eq_error hb with ⟨-, he⟩ | ⟨d, -, -, he⟩ <;> simp at he

/-- Only calls are refused. -/
lemma FailsAt.exists_call {g : Graph} {n : Numbering} {idle : List String} {c : CallContext}
    {s : Schedule} {v w : Nat} {t : String}
    (h : FailsAt g n idle c s v (.expansion w t .recursive)) :
    ∃ op c', g.vertex? v = some (.caller op) ∧
      expandCall g n idle v op.name c' s = .error (.expansion w t .recursive) := by
  cases h with
  | inner vertex fails =>
    rcases CallContext.inner_eq_error fails with ⟨fault, hne, he⟩ | ⟨-, hcondition⟩
    · obtain ⟨-, -, rfl⟩ := CompileError.expansion.inj he
      exact absurd rfl hne
    · exact absurd hcondition Numbering.condition_ne_recursive
  | gate vertex inner fails =>
    rcases Schedule.placeInBody_eq_error fails with he | ⟨q, -, hq⟩ | ⟨dense, -, hplace⟩
    · simp at he
    · rcases Numbering.dense_eq_error hq with ⟨-, he⟩ | ⟨d, -, -, he⟩ <;> simp at he
    · rcases Schedule.place_eq_error hplace with he | ⟨q, -, -, he⟩ <;> simp at he
  | call vertex inner fails => exact ⟨_, _, vertex, fails⟩

/-- A name that is refused is open, or can be called from itself. -/
lemma cycle_of_refused {g : Graph} {n : Numbering} {stack : List String} {site : Nat}
    {name : String} {c : CallContext} {s : Schedule} {w : Nat} {t : String}
    (h : expandCall g n (g.idle stack) site name c s = .error (.expansion w t .recursive)) :
    Relation.ReflTransGen g.Calls name t ∧ (t ∈ stack ∨ Relation.TransGen g.Calls t t) := by
  generalize hidle : g.idle stack = idle at h
  induction idle using idle_induct generalizing stack site name c s with
  | call idle ih =>
    rcases expandCall_eq_error h with ⟨-, he⟩ | ⟨root, hroot, ⟨hopen, he⟩ | ⟨hmem, hbody⟩⟩
    · simp at he
    · obtain ⟨-, rfl, -⟩ := CompileError.expansion.inj he
      rw [← hidle, g.mem_idle hroot, not_not] at hopen
      exact ⟨.refl, Or.inl hopen⟩
    · obtain ⟨v, hv, s', -, hfails⟩ := expandBody_eq_error hbody
      obtain ⟨op, c', hvertex, hcall⟩ := hfails.exists_call
      have hcalls : g.Calls name op.name := ⟨v, Graph.bodyOf_eq hroot ▸ hv, op, hvertex, rfl⟩
      obtain ⟨hpath, hcycle⟩ := ih name hmem (hidle ▸ g.idle_cons name stack) hcall
      refine ⟨.head hcalls hpath, ?_⟩
      rcases hcycle with hopen | hcycle
      · rcases List.mem_cons.mp hopen with rfl | hopen
        · exact Or.inr (.head' hcalls hpath)
        · exact Or.inl hopen
      · exact Or.inr hcycle

/-- **Calls of definitions that call each other.** An expansion ends, whichever names are open, and
so does a search for condition bits; both with the answer of the function. An expansion outside of
all bodies succeeds only if no name that can be called from the first one can be called from itself,
and it refuses a name only if that name can. Meanwhile no name is ever open twice. -/
theorem expandCall_recursion (g : Graph) (n : Numbering) (site : Nat) (name : String)
    (c : CallContext) (s : Schedule) :
    (∀ outer, ∃ k, (Unfolding.step g n outer)^[k] (.enter g outer [] site name c s) =
      .ended (expandCall g n (g.idle outer) site name c s)) ∧
    (∀ seen bits, ∃ k seen', (Scan.step g)^[k] ⟨seen, [.name name], bits⟩ =
      ⟨seen', [], g.collect (g.idle seen) [.name name] bits⟩) ∧
    (∀ answer, expandCall g n g.definedNames site name c s = .ok answer → ¬ g.Recursive name) ∧
    (∀ w t, expandCall g n g.definedNames site name c s = .error (.expansion w t .recursive) →
      Relation.ReflTransGen g.Calls name t ∧ Relation.TransGen g.Calls t t) ∧
    ∀ outer, outer.Nodup → ∀ k,
      (((Unfolding.step g n outer)^[k] (.enter g outer [] site name c s)).stack outer).Nodup := by
  refine ⟨fun outer => ?_, fun seen bits => ?_, fun answer h => ?_, fun w t h => ?_, ?_⟩
  · exact Unfolding.leads_call [] site name c s
  · exact Scan.iterate_step g ⟨seen, [.name name], bits⟩
  · rw [← g.idle_nil] at h
    obtain ⟨s', slot⟩ := answer
    obtain ⟨ps, hps, -⟩ := expandCall_iff.mp h
    rintro ⟨t, hpath, hcycle⟩
    exact (hps.sound t hpath).2 hcycle
  · rw [← g.idle_nil] at h
    obtain ⟨hpath, hopen | hcycle⟩ := cycle_of_refused h
    · simp at hopen
    · exact ⟨hpath, hcycle⟩
  · intro outer houter k
    exact Unfolding.nodup_iterate (Unfolding.nodup_enter [] houter site name c s) k

/-! ### Two definitions that call each other -/

/-- Two definitions that call each other, and one that calls none. -/
def pingPongCalls : List Graph.Call :=
  [.define "ping" 0 1 0, .callee "pong" [] [0] [] [] true,
    .define "pong" 0 1 0, .callee "X" [] [0] [] [] false, .callee "ping" [] [0] [] [] true,
    .define "flip" 0 1 0, .callee "X" [] [0] [] [] false]

/-- The only qubit is the first one. -/
def firstQubit : Numbering where
  qubits := ⟨[(0, 0)], 1⟩
  liveQubits := 1

/-- The expansion of the first one ends where it is called again, and that of the last one with its
gate. -/
theorem pingPong_recursion :
    let g := Graph.empty.run pingPongCalls
    (∃ k, (Unfolding.step g firstQubit [])^[k]
        (.enter g [] [] 7 "ping" ⟨[0], [], none⟩ (.empty 1)) =
      .ended (.error (.expansion 4 "ping" .recursive))) ∧
    Relation.TransGen g.Calls "ping" "ping" ∧
    expandCall g firstQubit g.definedNames 7 "flip" ⟨[0], [], none⟩ (.empty 1) =
      .ok (⟨[[.gate (.named "X" [0] [] none)]]⟩, 0) ∧
    ¬ g.Recursive "flip" := by
  intro g
  have hping : expandCall g firstQubit g.definedNames 7 "ping" ⟨[0], [], none⟩ (.empty 1) =
      .error (.expansion 4 "ping" .recursive) := by cbv
  have hflip : expandCall g firstQubit g.definedNames 7 "flip" ⟨[0], [], none⟩ (.empty 1) =
      .ok (⟨[[.gate (.named "X" [0] [] none)]]⟩, 0) := by cbv
  obtain ⟨hends, -, -, hrefused, -⟩ :=
    expandCall_recursion g firstQubit 7 "ping" ⟨[0], [], none⟩ (.empty 1)
  obtain ⟨-, -, hok, -, -⟩ :=
    expandCall_recursion g firstQubit 7 "flip" ⟨[0], [], none⟩ (.empty 1)
  have hend := hends []
  rw [g.idle_nil, hping] at hend
  exact ⟨hend, (hrefused 4 "ping" hping).2, hflip, hok _ hflip⟩

end QCircuit
