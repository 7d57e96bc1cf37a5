import Mathlib.Data.List.Lex
import Mathlib.Data.List.Nodup
import Mathlib.Data.List.Perm.Basic
import Mathlib.Order.Bounds.Basic
import Mathlib.Tactic.Common
import QCircuit.Graph.Order
import QCircuit.Proofs.Graph.Building

/-!
Taking the least position that is ready.

Counting edges down comes to this: a position is ready when all its predecessors are taken, and the
least one is next. What is taken in this way comes after its predecessors, and no list that goes on from
what is done and respects predecessors is less. If there is such a list at all, nothing is left over.
-/

namespace QCircuit

/-! ### Taking one by one -/

section Taking

variable {pred : Nat → List Nat} {n : Nat} {done order other : List Nat} {u v w : Nat}

/-- A position that is not done, while all its predecessors are. -/
def Available (pred : Nat → List Nat) (n : Nat) (done : List Nat) (v : Nat) : Prop :=
  v < n ∧ v ∉ done ∧ ∀ u ∈ pred v, u ∈ done

/-- The least position that is available is taken, until there is none. -/
inductive Taken (pred : Nat → List Nat) (n : Nat) : (done order : List Nat) → Prop
  | stop {done : List Nat} (h : ∀ v, ¬ Available pred n done v) : Taken pred n done []
  | take {done order : List Nat} {v : Nat} (hv : IsLeast {w | Available pred n done w} v)
      (h : Taken pred n (v :: done) order) : Taken pred n done (v :: order)

/-- A list of what is not done, each position after its predecessors. -/
structure Completes (pred : Nat → List Nat) (n : Nat) (done order : List Nat) : Prop where
  nodup : order.Nodup
  mem : ∀ v, v ∈ order ↔ v < n ∧ v ∉ done
  forward : ∀ v ∈ order, ∀ u ∈ pred v, u ∈ done ∨ [u, v].Sublist order

namespace Taken

lemma mem (h : Taken pred n done order) (hv : v ∈ order) : v < n ∧ v ∉ done := by
  induction h with
  | stop => simp at hv
  | take hleast _ ih =>
    rcases List.mem_cons.mp hv with rfl | hv
    · exact ⟨hleast.1.1, hleast.1.2.1⟩
    · exact ⟨(ih hv).1, fun hd => (ih hv).2 (List.mem_cons_of_mem _ hd)⟩

lemma nodup (h : Taken pred n done order) : order.Nodup := by
  induction h with
  | stop => exact List.nodup_nil
  | take _ h ih => exact List.nodup_cons.mpr ⟨fun hv => (h.mem hv).2 List.mem_cons_self, ih⟩

/-- Done is a position as soon as it is taken. -/
lemma forward_cons {w : Nat} (hv : v ∈ order) (h : u ∈ w :: done ∨ [u, v].Sublist order) :
    u ∈ done ∨ [u, v].Sublist (w :: order) := by
  rcases h with hd | hsub
  · rcases List.mem_cons.mp hd with rfl | hd
    · exact Or.inr ((List.singleton_sublist.mpr hv).cons_cons u)
    · exact Or.inl hd
  · exact Or.inr (hsub.cons w)

/-- What is taken comes after its predecessors. -/
lemma forward (h : Taken pred n done order) (hv : v ∈ order) (hu : u ∈ pred v) :
    u ∈ done ∨ [u, v].Sublist order := by
  induction h with
  | stop => simp at hv
  | take hleast _ ih =>
    rcases List.mem_cons.mp hv with rfl | hv
    · exact Or.inl (hleast.1.2.2 u hu)
    · exact forward_cons hv (ih hv)

/-- What is left over waits for something that is left over. -/
lemma exists_waiting (h : Taken pred n done order) (hv : v < n) (hd : v ∉ done) (ho : v ∉ order) :
    ∃ u ∈ pred v, u ∉ done ∧ u ∉ order := by
  induction h with
  | stop hnone =>
    by_contra! hno
    exact hnone v ⟨hv, hd, fun u hu => by_contra fun hud => by simpa using hno u hu hud⟩
  | take _ _ ih =>
    rw [List.mem_cons, not_or] at ho
    obtain ⟨u, hu, hud, huo⟩ := ih (by simp [ho.1, hd]) ho.2
    rw [List.mem_cons, not_or] at hud
    exact ⟨u, hu, hud.2, by simp [hud.1, huo]⟩

lemma perm_range (h : Taken pred n [] order) (hlen : order.length = n) :
    order.Perm (List.range n) := by
  have hsub : order.Subperm (List.range n) :=
    List.subperm_of_subset h.nodup fun v hv => List.mem_range.mpr (h.mem hv).1
  exact hsub.perm_of_length_le (by simp [hlen])

/-- Where all predecessors are less, the positions are taken as they come. -/
lemma eq_range' {k : Nat} (h : Taken pred n done order) (hdone : ∀ v, v ∈ done ↔ v < k)
    (hfwd : ∀ v < n, ∀ u ∈ pred v, u < v) : order = List.range' k (n - k) := by
  have havail : ∀ {done k}, (∀ v, v ∈ done ↔ v < k) → k < n → Available pred n done k :=
    fun hdone hk => ⟨hk, by simp [hdone], fun u hu => (hdone u).mpr (hfwd _ hk u hu)⟩
  induction h generalizing k with
  | stop hnone =>
    have hk : n ≤ k := Nat.le_of_not_lt fun hk => hnone k (havail hdone hk)
    rw [Nat.sub_eq_zero_of_le hk, List.range'_zero]
  | @take done order v hleast _ ih =>
    obtain ⟨hv, hvd, -⟩ := hleast.1
    have hkv : k ≤ v := Nat.le_of_not_lt fun hlt => hvd ((hdone v).mpr hlt)
    obtain rfl : v = k := Nat.le_antisymm (hleast.2 (havail hdone (by omega))) hkv
    rw [ih (k := v + 1) fun u => by rw [List.mem_cons, hdone]; omega]
    rw [show n - v = n - (v + 1) + 1 by omega, List.range'_succ]

end Taken

namespace Completes

/-- Such a list begins with an available position. -/
lemma available (h : Completes pred n done (v :: order)) : Available pred n done v := by
  obtain ⟨hlt, hd⟩ := (h.mem v).mp List.mem_cons_self
  refine ⟨hlt, hd, fun u hu => (h.forward v List.mem_cons_self u hu).resolve_right fun hsub => ?_⟩
  have hnot := (List.nodup_cons.mp h.nodup).1
  rcases List.cons_sublist_cons'.mp hsub with hsub | ⟨-, hsub⟩
  · exact hnot (hsub.subset (by simp))
  · exact hnot (hsub.subset (by simp))

/-- Another available position can be taken out of it. -/
lemma erase (h : Completes pred n done order) (v : Nat) :
    Completes pred n (v :: done) (order.erase v) := by
  refine ⟨h.nodup.erase v, fun w => ?_, fun w hw u hu => ?_⟩
  · rw [h.nodup.mem_erase_iff, h.mem, List.mem_cons]
    tauto
  · rw [h.nodup.mem_erase_iff] at hw
    by_cases huv : u = v
    · exact Or.inl (huv ▸ List.mem_cons_self)
    · refine (h.forward w hw.2 u hu).imp (List.mem_cons_of_mem _) fun hsub => ?_
      have := hsub.erase v
      rwa [List.erase_of_not_mem (by simp [Ne.symm huv, Ne.symm hw.1])] at this

lemma cons (h : Completes pred n (v :: done) order) (hv : Available pred n done v) :
    Completes pred n done (v :: order) := by
  refine ⟨List.nodup_cons.mpr ⟨fun hmem => ?_, h.nodup⟩, fun w => ?_, fun w hw u hu => ?_⟩
  · exact ((h.mem v).mp hmem).2 List.mem_cons_self
  · rw [List.mem_cons, h.mem, List.mem_cons]
    by_cases hwv : w = v
    · exact iff_of_true (Or.inl hwv) (hwv ▸ ⟨hv.1, hv.2.1⟩)
    · tauto
  · rcases List.mem_cons.mp hw with rfl | hw
    · exact Or.inl (hv.2.2 u hu)
    · exact Taken.forward_cons hw (h.forward w hw u hu)

end Completes

/-- **Nothing is left over** where anything can be completed. -/
lemma Taken.completes (h : Taken pred n done order) (hother : Completes pred n done other) :
    Completes pred n done order := by
  induction h generalizing other with
  | stop hnone =>
    cases other with
    | nil => exact hother
    | cons w other => exact absurd hother.available (hnone w)
  | @take done order v hleast _ ih => exact (ih (hother.erase v)).cons hleast.1

/-- **What is taken is the least completion.** -/
lemma Taken.le (h : Taken pred n done order) (hother : Completes pred n done other) :
    order ≤ other := by
  induction h generalizing other with
  | stop =>
    cases other with
    | nil => exact le_rfl
    | cons w other => exact le_of_lt (show [] < w :: other from List.Lex.nil)
  | @take done order v hleast _ ih =>
    cases other with
    | nil => exact absurd ((hother.mem v).mpr ⟨hleast.1.1, hleast.1.2.1⟩) List.not_mem_nil
    | cons w other =>
      rcases (show v ≤ w from hleast.2 hother.available).lt_or_eq with hlt | rfl
      · exact le_of_lt (show v :: order < w :: other from List.Lex.rel hlt)
      · have hrest := hother.erase v
        rw [List.erase_cons_head] at hrest
        exact List.cons_le_cons v (ih hrest)

end Taking

/-! ### Counting edges -/

namespace Graph

namespace Waiting

variable {w : Waiting} {u v : Nat} {vs : List Nat}

lemma degrees_arrive (w : Waiting) (v u : Nat) :
    (w.arrive v).degrees[u]? = w.degrees[u]?.map (· - [v].count u) := by
  unfold arrive
  split
  · next d hd =>
    by_cases huv : v = u
    · subst huv
      obtain ⟨hv, hget⟩ := Array.getElem?_eq_some_iff.mp hd
      simp [hv, hget]
    · simp [Array.getElem?_setIfInBounds_ne huv, huv]
  · next hnot =>
    cases hu : w.degrees[u]? with
    | none => rfl
    | some d =>
      by_cases huv : v = u
      · subst huv
        cases d with
        | zero => simp
        | succ d => exact absurd hu (hnot d)
      · simp [huv]

lemma mem_ready_arrive : u ∈ (w.arrive v).ready ↔
    u ∈ w.ready ∨ u = v ∧ w.degrees[u]? = some 1 := by
  unfold arrive
  split
  · next d hd =>
    by_cases huv : u = v
    · subst huv
      cases d <;> simp [hd]
    · cases d <;> simp [huv]
  · next hnot =>
    refine (or_iff_left ?_).symm
    rintro ⟨rfl, hone⟩
    exact hnot 0 hone

/-- Every arrival takes one off. -/
lemma degrees_arrivals (w : Waiting) (vs : List Nat) (u : Nat) :
    (vs.foldl arrive w).degrees[u]? = w.degrees[u]?.map (· - vs.count u) := by
  induction vs generalizing w with
  | nil => simp
  | cons v vs ih =>
    rw [List.foldl_cons, ih, degrees_arrive, Option.map_map]
    refine congrArg (w.degrees[u]?.map ·) (funext fun d => ?_)
    simp only [Function.comp_apply, List.count_cons, List.count_nil]
    omega

/-- A position is ready when its last edge arrives. -/
lemma mem_ready_arrivals : u ∈ (vs.foldl arrive w).ready ↔
    u ∈ w.ready ∨ ∃ d, w.degrees[u]? = some d ∧ 0 < d ∧ d ≤ vs.count u := by
  induction vs generalizing w with
  | nil =>
    refine (or_iff_left ?_).symm
    rintro ⟨d, -, hpos, hle⟩
    simp only [List.count_nil] at hle
    omega
  | cons v vs ih =>
    rw [List.foldl_cons, ih, mem_ready_arrive, degrees_arrive, or_assoc]
    refine or_congr_right ?_
    cases hu : w.degrees[u]? with
    | none => simp
    | some d =>
      simp only [Option.map_some, Option.some.injEq, exists_eq_left', List.count_cons,
        List.count_nil, beq_iff_eq, eq_comm (a := u)]
      split <;> omega

/-- What is ready is listed once and waits for no edge. -/
structure Sound (w : Waiting) : Prop where
  nodup : w.ready.Nodup
  degree : ∀ v ∈ w.ready, w.degrees[v]? = some 0

lemma Sound.arrive (h : w.Sound) (v : Nat) : (w.arrive v).Sound := by
  refine ⟨?_, fun u hu => ?_⟩
  · unfold Waiting.arrive
    split
    · next d hd =>
      split
      · next h0 =>
        refine List.nodup_cons.mpr ⟨fun hv => ?_, h.nodup⟩
        simp [h.degree v hv] at hd
      · exact h.nodup
    · exact h.nodup
  · rw [degrees_arrive]
    rcases mem_ready_arrive.mp hu with hold | ⟨rfl, hone⟩
    · simp [h.degree u hold]
    · simp [hone]

lemma Sound.arrivals (h : w.Sound) (vs : List Nat) : (vs.foldl Waiting.arrive w).Sound := by
  induction vs generalizing w with
  | nil => exact h
  | cons v vs ih => exact ih (h.arrive v)

/-- What holds between two steps: every position waits for the edges from what is not done, and what
is available is ready. -/
structure Counts (g : Graph) (done : List Nat) (w : Waiting) : Prop where
  degree : ∀ v, w.degrees[v]? =
    if v < g.size then some ((g.incoming v).countP (· ∉ done)) else none
  nodup : w.ready.Nodup
  ready : ∀ v, v ∈ w.ready ↔ Available g.incoming g.size done v
  closed : ∀ v ∈ done, ∀ u ∈ g.incoming v, u ∈ done

end Waiting

/-- Edges side by side are counted at both ends. -/
lemma count_outgoing (g : Graph) (u v : Nat) :
    (g.outgoing u).count v = (g.incoming v).count u := by
  unfold outgoing incoming
  rw [Array.toList_filterMap, Array.toList_filterMap, List.count, List.count,
    List.countP_filterMap, List.countP_filterMap]
  refine List.countP_congr fun e _ => ?_
  by_cases hs : e.source = u <;> by_cases ht : e.target = v <;> simp [hs, ht]

lemma countP_not_done_eq_zero {us done : List Nat} :
    us.countP (· ∉ done) = 0 ↔ ∀ u ∈ us, u ∈ done := by
  simp [List.countP_eq_zero]

/-- What is not done yet is what will not be done, and the next one. -/
lemma countP_not_done (us : List Nat) {done : List Nat} {v : Nat} (hv : v ∉ done) :
    us.countP (· ∉ done) = us.countP (· ∉ v :: done) + us.count v := by
  induction us with
  | nil => rfl
  | cons u us ih =>
    rw [List.countP_cons, List.countP_cons, List.count_cons, ih]
    by_cases huv : u = v
    · subst huv
      simp [hv]
      omega
    · by_cases hu : u ∈ done <;> simp [hu, huv]
      omega

namespace Waiting

lemma Counts.initial (g : Graph) : Counts g [] g.waiting := by
  have hdegree : ∀ v, g.waiting.degrees[v]? =
      if v < g.size then some (g.incoming v).length else none := by
    intro v
    simp only [waiting, Array.getElem?_map, Array.getElem?_range]
    split <;> simp
  refine ⟨fun v => by simp [hdegree], List.nodup_range.filter _, fun v => ?_, by simp⟩
  have hmem : v ∈ g.waiting.ready ↔ v < g.size ∧ g.waiting.degrees[v]? = some 0 := by
    simp [waiting]
  rw [hmem, hdegree]
  by_cases hv : v < g.size <;> simp [Available, hv, List.eq_nil_iff_forall_not_mem]

/-- A position that is taken takes the edges from it along. -/
lemma Counts.take {g : Graph} {done : List Nat} {w : Waiting} (h : Counts g done w) {v : Nat}
    (hv : v ∈ w.ready) : Counts g (v :: done)
      ((g.outgoing v).foldl arrive { w with ready := w.ready.erase v }) := by
  obtain ⟨hlt, hvd, hpred⟩ := (h.ready v).mp hv
  have hsound : Sound { w with ready := w.ready.erase v } := by
    refine ⟨h.nodup.erase v, fun u hu => ?_⟩
    obtain ⟨hu, -, hdone⟩ := (h.ready u).mp (List.mem_of_mem_erase hu)
    rw [h.degree, if_pos hu, countP_not_done_eq_zero.mpr hdone]
  have hclosed : ∀ x ∈ v :: done, ∀ u ∈ g.incoming x, u ∈ done := by
    intro x hx
    rcases List.mem_cons.mp hx with rfl | hx
    · exact hpred
    · exact h.closed x hx
  refine ⟨fun u => ?_, (hsound.arrivals _).nodup, fun u => ?_,
    fun x hx u hu => List.mem_cons_of_mem _ (hclosed x hx u hu)⟩
  · rw [degrees_arrivals, h.degree, count_outgoing, countP_not_done _ hvd]
    split <;> simp
  · have hsplit := countP_not_done (g.incoming u) hvd
    rw [mem_ready_arrivals, h.nodup.mem_erase_iff, h.ready, h.degree, count_outgoing]
    constructor
    · rintro (⟨hne, hu, hud, hdone⟩ | ⟨d, hd, hpos, hle⟩)
      · exact ⟨hu, by simp [hne, hud], fun x hx => List.mem_cons_of_mem _ (hdone x hx)⟩
      · obtain ⟨hu, hd⟩ := Option.ite_none_right_eq_some.mp hd
        obtain rfl := Option.some.inj hd
        refine ⟨hu, fun hmem => ?_, countP_not_done_eq_zero.mp (by omega)⟩
        have := countP_not_done_eq_zero.mpr (hclosed u hmem)
        omega
    · rintro ⟨hu, hmem, hdone⟩
      obtain ⟨hne, hud⟩ := not_or.mp (mt List.mem_cons.mpr hmem)
      have hzero := countP_not_done_eq_zero.mpr hdone
      rcases Nat.eq_zero_or_pos ((g.incoming u).countP (· ∉ done)) with hnone | hpos
      · exact Or.inl ⟨hne, hu, hud, countP_not_done_eq_zero.mp hnone⟩
      · -- then the last edges come from what is taken
        exact Or.inr ⟨_, if_pos hu, hpos, by omega⟩

lemma Counts.taken {g : Graph} {done : List Nat} {w : Waiting} (h : Counts g done w) :
    Taken g.incoming g.size done (w.drain g.outgoing) := by
  induction hk : w.pending using Nat.strongRecOn generalizing done w with
  | ind k ih =>
    rw [drain]
    split
    · next hnone =>
      refine .stop fun v hv => ?_
      rw [← h.ready, List.min?_eq_none_iff.mp hnone] at hv
      simp at hv
    · next v hsome =>
      obtain ⟨hv, hleast⟩ := List.min?_eq_some_iff.mp hsome
      refine .take ⟨(h.ready v).mp hv, fun u hu => hleast u ((h.ready u).mpr hu)⟩
        (ih _ ?_ (h.take hv) rfl)
      rw [pending_arrivals, ← hk]
      exact pending_erase_lt hv

end Waiting

/-- **Vertices are taken as long as one is available**; if all are, this is the order. -/
theorem exists_taken (g : Graph) : ∃ order, Taken g.incoming g.size [] order ∧
    g.topologicalOrder = if order.length = g.size then .ok order else .error .cyclic :=
  ⟨_, (Waiting.Counts.initial g).taken, rfl⟩

lemma taken_of_topologicalOrder {g : Graph} {order : List Nat}
    (h : g.topologicalOrder = .ok order) :
    Taken g.incoming g.size [] order ∧ order.length = g.size := by
  obtain ⟨order', htaken, heq⟩ := g.exists_taken
  rw [heq] at h
  split at h
  · next hlen =>
    obtain rfl := Except.ok.inj h
    exact ⟨htaken, hlen⟩
  · simp at h

/-- An order has all positions, each once. -/
lemma topologicalOrder_perm {g : Graph} {order : List Nat} (h : g.topologicalOrder = .ok order) :
    order.Perm (List.range g.size) :=
  have ⟨htaken, hlen⟩ := taken_of_topologicalOrder h
  htaken.perm_range hlen

/-- In an order every edge points forward. -/
lemma topologicalOrder_forward {g : Graph} {order : List Nat}
    (h : g.topologicalOrder = .ok order) {e : Edge} (he : e ∈ g.edges) (ht : e.target < g.size) :
    [e.source, e.target].Sublist order := by
  have hmem : e.target ∈ order := (topologicalOrder_perm h).mem_iff.mpr (List.mem_range.mpr ht)
  simpa using (taken_of_topologicalOrder h).1.forward hmem (mem_incoming.mpr ⟨e, he, rfl, rfl⟩)

lemma topologicalOrder_source_ne {g : Graph} {order : List Nat} (h : g.topologicalOrder = .ok order)
    {e : Edge} (he : e ∈ g.edges) (ht : e.target < g.size) : e.source ≠ e.target := by
  intro hself
  have hsub := topologicalOrder_forward h he ht
  rw [hself] at hsub
  have hnd := (topologicalOrder_perm h).nodup_iff.mpr List.nodup_range
  simpa using hnd.sublist hsub

/-- A cycle is the only thing that can be wrong with an order. -/
lemma topologicalOrder_error_iff {g : Graph} :
    g.topologicalOrder = .error .cyclic ↔ ∀ order, g.topologicalOrder ≠ .ok order := by
  unfold topologicalOrder
  dsimp only
  split <;> simp

end Graph
end QCircuit
