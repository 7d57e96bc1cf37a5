import Mathlib
import QCircuit.Proofs.Graph.BodyOrder
import QCircuit.Proofs.Graph.Supply

/-!
The least linear extension.

Builder calls make edges between vertices of the graph only, conditions on earlier vertices included.
So what is left over when no vertex is ready is a finite set, in which everything waits for something:
there is a cycle. Without one, all vertices are taken, and the order is the least of all lists in which
every edge points forward.
-/

namespace QCircuit.Graph

/-! ### Edges join vertices -/

/-- All that a graph refers to is in it. -/
structure Inside (g : Graph) : Prop where
  source : ∀ e ∈ g.edges, e.source < g.size
  user : ∀ p ∈ g.frontier, p.2 < g.size
  current : ∀ r, g.current = some r → r < g.size
  root : ∀ v r, g.rootOf v = some r → r < g.size

lemma inside_empty : Inside empty := by
  refine ⟨?_, ?_, ?_, ?_⟩ <;> simp [empty, rootOf]

namespace Inside

variable {g g' : Graph} (hg : Inside g)
include hg

/-- What is old stays in; the rest is to be shown of what is new. -/
lemma of_extends (hext : Extends g g')
    (hedge : ∀ e ∈ g'.edges, e ∈ g.edges ∨ e.source < g'.size)
    (huser : ∀ p ∈ g'.frontier, p ∈ g.frontier ∨ p.2 < g'.size)
    (hcurrent : ∀ r, g'.current = some r → g.current = some r ∨ r < g'.size)
    (hroot : ∀ v r, g.size ≤ v → g'.rootOf v = some r → g.current = some r) : Inside g' := by
  have hle := hext.size_le
  refine ⟨fun e he => ?_, fun p hp => ?_, fun r hr => ?_, fun v r hr => ?_⟩
  · rcases hedge e he with hold | hnew
    · exact Nat.lt_of_lt_of_le (hg.source e hold) hle
    · exact hnew
  · rcases huser p hp with hold | hnew
    · exact Nat.lt_of_lt_of_le (hg.user p hold) hle
    · exact hnew
  · rcases hcurrent r hr with hold | hnew
    · exact Nat.lt_of_lt_of_le (hg.current r hold) hle
    · exact hnew
  · rcases Nat.lt_or_ge v g.size with hv | hv
    · rw [hext.rootOf_eq hv] at hr
      exact Nat.lt_of_lt_of_le (hg.root v r hr) hle
    · exact Nat.lt_of_lt_of_le (hg.current r (hroot v r hv hr)) hle

lemma register (r : Register) : Inside (r.addTo g) := by
  refine hg.of_extends (r.extends_addTo g) (fun e he => ?_) (fun p hp => ?_) (fun _ => Or.inl)
    fun v root hv hr => ?_
  · refine (Register.mem_edges he).imp_right ?_
    rintro ⟨i, -, rfl⟩
    simp only [Register.size_addTo]
    omega
  · refine (Register.mem_frontier hp).imp_right ?_
    rintro ⟨i, hi, rfl⟩
    simp only [Register.size_addTo]
    omega
  · simp [Register.rootOf_new hv] at hr

lemma head (d : Document.Head) : Inside (d.addTo g) := by
  have hlt : g.size < (d.addTo g).size := by simp
  refine hg.of_extends (d.extends_addTo g) (fun _ => Or.inl) (fun p hp => ?_) (fun r hr => ?_)
    fun v r hv hr => ?_
  · rcases Document.Head.mem_frontier hp with hold | ⟨-, hv⟩
    · exact Or.inl hold
    · exact Or.inr (hv ▸ hlt)
  · exact Or.inr (Option.some.inj hr ▸ hlt)
  · simp [Document.Head.rootOf_new hv] at hr

lemma site (x : Site) : Inside (x.addTo g) := by
  have hlt : g.size < (x.addTo g).size := by simp
  have hcurrent : ∀ {r}, x.root g = some r → g.current = some r :=
    fun hr => (Site.root_eq_some_iff.mp hr).2
  refine hg.of_extends (x.extends_addTo g) (fun e he => ?_) (fun p hp => ?_) (fun _ => Or.inl)
    fun v r hv hr => ?_
  · refine (Site.mem_edges.mp he).imp_right fun hnew => ?_
    rcases Site.source_edges hnew with hself | hroot | ⟨b, -, hu⟩
    · exact hself ▸ hlt
    · exact Nat.lt_trans (hg.current _ (hcurrent hroot)) hlt
    · exact Nat.lt_trans (hg.user _ (mem_of_lookup hu)) hlt
  · rcases Site.mem_frontier hp with hold | ⟨-, hv⟩
    · exact Or.inl hold
    · exact Or.inr (hv ▸ hlt)
  · rw [Site.eq_size_of_rootOf hv hr, Site.rootOf_addTo] at hr
    exact hcurrent hr

/-- Bits of a condition come from their last users. -/
lemma link? {leaf : Leaf} {v : Nat} {wire : Wire} (hv : v < g.size)
    (h : g.link? leaf v wire = some g') : Inside g' := by
  obtain ⟨u, hu, rfl⟩ := Option.map_eq_some_iff.mp h
  refine ⟨fun e he => ?_, fun p hp => ?_, hg.current, hg.root⟩
  · rcases Array.mem_push.mp he with hold | rfl
    · exact hg.source e hold
    · exact hg.user _ (mem_of_lookup hu)
  · rcases List.mem_cons.mp hp with rfl | hold
    · exact hv
    · exact hg.user p hold

lemma linkCondition {v : Nat} (hv : v < g.size) (clbits : List Nat) :
    Inside (g.linkCondition v clbits).1 := by
  induction clbits generalizing g with
  | nil => exact hg
  | cons c clbits ih =>
    rw [Graph.linkCondition]
    split
    · exact hg
    · next g₁ hlink =>
      exact ih (hg.link? hv hlink) ((link?_annotates hv hlink).size ▸ hv)

lemma linkFromRoot {root : Nat} (hroot : root < g.size) (v : Nat) (clbits : List Nat) :
    Inside (g.linkFromRoot root v clbits) := by
  rw [linkFromRoot_eq]
  refine ⟨fun e he => ?_, hg.user, hg.current, hg.root⟩
  rcases Array.mem_append.mp he with hold | hnew
  · exact hg.source e hold
  · obtain ⟨c, -, rfl⟩ := List.mem_map.mp (List.mem_toArray.mp hnew)
    exact hroot

lemma setComparison (v : Nat) (relation : Relation) (constant : Int) :
    Inside (g.setComparison v relation constant) := by
  have hsize := (setComparison_annotates g v relation constant).size
  have hroot : ∀ w, (g.setComparison v relation constant).rootOf w = g.rootOf w := by
    intro w
    unfold rootOf Graph.setComparison
    rw [Array.getElem?_modify]
    split <;> cases g.nodes[w]? <;> rfl
  refine ⟨?_, ?_, ?_, fun w r => ?_⟩ <;> rw [hsize]
  · exact hg.source
  · exact hg.user
  · exact hg.current
  · rw [hroot]
    exact hg.root w r

lemma addCondition (id : Nat) (clbits : List Nat) (relation : Relation) (constant : Int) :
    Inside (g.addCondition id clbits relation constant).1 := by
  unfold Graph.addCondition
  dsimp only
  split
  · exact hg
  · next node hnode =>
    have hv := lt_size_of_node hnode
    split
    · exact hg
    · split
      · next root hr =>
        have hroot : g.rootOf (id % 4294967296) = some root := by simp [rootOf, hnode, hr]
        exact (hg.linkFromRoot (hg.root _ _ hroot) _ clbits).setComparison ..
      · have hlink := hg.linkCondition hv clbits
        split <;> next heq =>
          rw [heq] at hlink
          first
          | exact hlink
          | exact hlink.setComparison ..

lemma perform (c : Call) : Inside (g.perform c).1 := by
  rcases perform_cases g c with
    ⟨r, h⟩ | ⟨d, h⟩ | ⟨id, clbits, relation, constant, h⟩ | h | ⟨x, -, -, -, -, h⟩
  · exact h ▸ hg.register r
  · exact h ▸ hg.head d
  · exact h ▸ hg.addCondition id clbits relation constant
  · exact h.symm ▸ hg
  · exact h ▸ hg.site x

lemma run (cs : List Call) : Inside (g.run cs) := by
  induction cs generalizing g with
  | nil => exact hg
  | cons c cs ih => exact ih (hg.perform c)

end Inside

/-! ### Cycles -/

/-- Among finitely many vertices of a graph without cycles there is one that waits for none of them. -/
lemma Acyclic.exists_first {g : Graph} (h : g.Acyclic) {s : Set Nat} (hfin : s.Finite)
    (hne : s.Nonempty) : ∃ v ∈ s, ∀ u ∈ s, ¬ g.Leads u v := by
  have := h.isStrictOrder
  have hwf : s.WellFoundedOn (Relation.TransGen g.Leads) := hfin.wellFoundedOn
  obtain ⟨v, hv, hmin⟩ := (Set.wellFoundedOn_iff.mp hwf).has_min s hne
  exact ⟨v, hv, fun u hu hlead => hmin u hu ⟨.single hlead, hu, hv⟩⟩

/-- A list of all positions in which every edge points forward. -/
structure LinearExtension (g : Graph) (order : List Nat) : Prop where
  perm : order.Perm (List.range g.size)
  forward : ∀ u v, g.Leads u v → [u, v].Sublist order

namespace LinearExtension

variable {g : Graph} {order : List Nat} (h : g.LinearExtension order)
include h

lemma nodup : order.Nodup := h.perm.nodup_iff.mpr List.nodup_range

/-- What has a linear extension has no cycle. -/
lemma acyclic : g.Acyclic := by
  have hasc : order.Pairwise fun u v => order.idxOf u < order.idxOf v := by
    refine List.pairwise_iff_getElem.mpr fun i j hi hj hij => ?_
    rwa [h.nodup.idxOf_getElem, h.nodup.idxOf_getElem]
  exact acyclic_of_rank order.idxOf fun u v hlead =>
    List.pairwise_iff_forall_sublist.mp hasc (h.forward u v hlead)

lemma completes : Completes g.incoming g.size [] order := by
  refine ⟨h.nodup, fun v => ?_, fun v _ u hu => Or.inr (h.forward u v (mem_incoming.mp hu))⟩
  simp [h.perm.mem_iff]

end LinearExtension

/-- Without a cycle nothing is left over. -/
lemma Acyclic.length_taken {g : Graph} (h : g.Acyclic) (hsource : ∀ e ∈ g.edges, e.source < g.size)
    {order : List Nat} (htaken : Taken g.incoming g.size [] order) : order.length = g.size := by
  have hall : ∀ v, v ∈ order ↔ v ∈ List.range g.size := by
    intro v
    rw [List.mem_range]
    refine ⟨fun hv => (htaken.mem hv).1, fun hv => ?_⟩
    by_contra hleft
    -- what is left over is finite, so something in it waits for none of it
    have hfin : {v | v < g.size ∧ v ∉ order}.Finite :=
      (Set.finite_lt_nat g.size).subset fun _ hw => hw.1
    obtain ⟨w, ⟨hw, hwo⟩, hfirst⟩ := h.exists_first hfin ⟨v, hv, hleft⟩
    obtain ⟨u, hu, -, huo⟩ := htaken.exists_waiting hw List.not_mem_nil hwo
    obtain ⟨e, he, rfl, rfl⟩ := mem_incoming.mp hu
    exact hfirst _ ⟨hsource e he, huo⟩ ⟨e, he, rfl, rfl⟩
  rw [((List.perm_ext_iff_of_nodup htaken.nodup List.nodup_range).mpr hall).length_eq,
    List.length_range]

/-- **The topological order is the least linear extension**, whatever builder calls have made the
graph. There is none exactly when there is a cycle, of which a loop is one; otherwise no list of all
positions in which every edge points forward is lexicographically less. -/
theorem topologicalOrder_isLeast (cs : List Call) :
    let g := empty.run cs
    (g.topologicalOrder = .error .cyclic ↔ ∃ v, Relation.TransGen g.Leads v v) ∧
      (g.Acyclic ↔ ∃ order, g.topologicalOrder = .ok order ∧
        IsLeast {order | g.LinearExtension order} order) := by
  intro g
  have htarget : ∀ e ∈ g.edges, e.target < g.size := (fed_empty.run cs).target
  have hsource : ∀ e ∈ g.edges, e.source < g.size := (inside_empty.run cs).source
  have hext : ∀ {order}, g.topologicalOrder = .ok order → g.LinearExtension order := by
    refine fun hok => ⟨topologicalOrder_perm hok, ?_⟩
    rintro _ _ ⟨e, he, rfl, rfl⟩
    exact topologicalOrder_forward hok he (htarget e he)
  have hleast : g.Acyclic ↔ ∃ order, g.topologicalOrder = .ok order ∧
      IsLeast {order | g.LinearExtension order} order := by
    refine ⟨fun hacyclic => ?_, fun ⟨order, hok, _⟩ => (hext hok).acyclic⟩
    obtain ⟨order, htaken, heq⟩ := g.exists_taken
    rw [if_pos (hacyclic.length_taken hsource htaken)] at heq
    exact ⟨order, heq, hext heq, fun other hother => htaken.le hother.completes⟩
  refine ⟨?_, hleast⟩
  rw [topologicalOrder_error_iff]
  constructor
  · intro hnone
    by_contra! hacyclic
    obtain ⟨order, hok, -⟩ := hleast.mp hacyclic
    exact hnone order hok
  · rintro ⟨v, hcycle⟩ order hok
    exact (hext hok).acyclic v hcycle

/-- A condition on a gate, set after the bit is measured from the qubit that the gate acts on. -/
example : (empty.run [.register ⟨.qubit, 0, 1⟩, .register ⟨.clbit, 0, 1⟩, .op "X" [] [0] [],
    .op "measure" [] [0] [0], .condition 4 [0] .eq 1]).topologicalOrder = .error .cyclic := by cbv

end QCircuit.Graph
