import Mathlib
import QCircuit.Proofs.Graph.Statements

/-!
The definition that a part belongs to.

All definitions keep the last users of their slots in one table, and a new one takes over only the
slots that it declares. A part that names another slot is linked to the body that used it last, and
with it the part shares all its slots with that body. So a part lies in the body of its own
definition alone exactly when all its slots are declared there and none of them is shared.
-/

namespace QCircuit

namespace Document

/-- The slots that a part uses. -/
def Part.slots (p : Part) : List Leaf :=
  p.qubits.map (fun q => ⟨.inner, .qubit, q⟩) ++ p.clbits.map fun c => ⟨.inner, .clbit, c⟩

/-- The slots that get a new last user. -/
def Statement.slots : Statement → List Leaf
  | .define d => d.slots
  | .callee p => p.slots
  | _ => []

/-- The part uses a slot that its definition does not declare, or shares with an earlier one. -/
def Part.Strays (p : Part) (d : Head) (shared : List Leaf) : Prop :=
  ∃ l ∈ p.slots, l ∉ d.slots ∨ l ∈ shared

instance (p : Part) (d : Head) (shared : List Leaf) : Decidable (p.Strays d shared) :=
  inferInstanceAs (Decidable (∃ l ∈ p.slots, l ∉ d.slots ∨ l ∈ shared))

/-- The slots that a definition shares after one more part. -/
def Head.share (d : Head) (shared : List Leaf) (p : Part) : List Leaf :=
  if p.Strays d shared then p.slots ++ shared else shared

/-- The slots that a definition with these parts shares with earlier ones. -/
def Head.shared (d : Head) (parts : List Part) : List Leaf := parts.foldl d.share []

lemma Head.shared_snoc (d : Head) (parts : List Part) (p : Part) :
    d.shared (parts ++ [p]) = d.share (d.shared parts) p := by
  simp [Head.shared]

/-- After a part that strays none of its slots is the definition's own; the others are as before. -/
lemma Head.mem_share {d : Head} {shared : List Leaf} {p : Part} {l : Leaf} :
    l ∉ d.slots ∨ l ∈ d.share shared p ↔
      if l ∈ p.slots then p.Strays d shared else l ∉ d.slots ∨ l ∈ shared := by
  unfold Head.share
  by_cases hl : l ∈ p.slots
  · by_cases hp : p.Strays d shared
    · simp [hl, hp]
    · rw [if_neg hp, if_pos hl]
      exact iff_of_false (fun h => hp ⟨l, hl, h⟩) hp
  · rw [if_neg hl]
    split <;> simp [hl]

end Document

namespace Graph

open Document

/-! ### What a body is -/

/-- A walk through bodies can go along an edge between the two. -/
def Enters (g : Graph) (a b : Nat) : Prop := g.Leads a b ∧ (g.vertex? b).any Vertex.isCall

/-- A walk through bodies can come from one position to the other. -/
def Reaches (g : Graph) : Nat → Nat → Prop := Relation.ReflTransGen g.Enters

/-- The position is in the body below a root. -/
def InBody (g : Graph) (r v : Nat) : Prop := ∃ vs, g.bodyOrder r = .ok vs ∧ v ∈ vs

/-- Another root than `r` leads to the position. -/
def Foreign (g : Graph) (r v : Nat) : Prop := ∃ r', g.IsRoot r' ∧ r' ≠ r ∧ g.Reaches r' v

lemma lt_size_of_isCall {g : Graph} {v : Nat} (h : (g.vertex? v).any Vertex.isCall) :
    v < g.size := by
  obtain ⟨vertex, hv, -⟩ := Option.any_eq_true _ _ |>.mp h
  exact lt_size_of_vertex hv

lemma IsRoot.not_isCall {g : Graph} {r : Nat} (hr : g.IsRoot r) :
    (g.vertex? r).any Vertex.isCall = false := by
  obtain ⟨name, params, qubits, clbits, hnode⟩ := hr
  simp [vertex?, hnode, Vertex.isCall]

lemma mem_calls {g : Graph} {v : Nat} : v ∈ g.calls ↔ (g.vertex? v).any Vertex.isCall := by
  simp only [calls, List.mem_filter, List.mem_range, and_iff_right_iff_imp]
  exact lt_size_of_isCall

/-- **A body is what can be reached from its root**, whatever edges there are. -/
theorem mem_bodyFrom_iff {g : Graph} {r v : Nat} (hr : r < 4294967296)
    (hcall : (g.vertex? r).any Vertex.isCall = false) :
    v ∈ g.bodyFrom r ↔ Relation.TransGen g.Enters r v := by
  rw [bodyFrom_eq_walk hr hcall]
  constructor
  · intro hv
    have hinv := walk_induct (P := fun v => Relation.TransGen g.Enters r v) ?_ ?_ hv
    · exact (by simpa using hinv : v ∈ g.calls ∧ Relation.TransGen g.Enters r v).2
    · exact fun u _ hu w hw hmem => hu.tail ⟨mem_outgoing.mp hw, mem_calls.mp hmem⟩
    · intro u hu hmem
      have hout : u ∈ g.outgoing r := by simpa using hu
      exact .single ⟨mem_outgoing.mp hout, mem_calls.mp hmem⟩
  · intro hpath
    induction hpath with
    | single hstep =>
      have hout := mem_outgoing.mpr hstep.1
      exact mem_walk_of_enter (List.mem_map_of_mem hout) (mem_calls.mpr hstep.2)
    | tail _ hstep ih =>
      exact walk_closed ih (by simp) (by simp) (mem_outgoing.mpr hstep.1) (mem_calls.mpr hstep.2)

lemma inBody_iff {g : Graph} {r v : Nat} (hsize : g.size ≤ 4294967296) (hr : g.IsRoot r)
    (hv : (g.vertex? v).any Vertex.isCall) : g.InBody r v ↔ g.Reaches r v := by
  have hlt := Nat.lt_of_lt_of_le hr.lt_size hsize
  have hlocate := locate_ok hsize hr.lt_size
  have hne : v ≠ r := by
    rintro rfl
    simp [hr.not_isCall] at hv
  have hbody : g.InBody r v ↔ v ∈ g.bodyFrom r := by
    simp [InBody, bodyOrder, hlocate, Except.map]
  rw [hbody, mem_bodyFrom_iff hlt hr.not_isCall, Reaches, Relation.reflTransGen_iff_eq_or_transGen,
    or_iff_right hne]

lemma Reaches.le {g : Graph} (hg : Wired g) {a b : Nat} (h : g.Reaches a b) : a ≤ b := by
  induction h with
  | refl => exact Nat.le_refl a
  | tail _ hstep ih =>
    obtain ⟨⟨e, he, rfl, rfl⟩, -⟩ := hstep
    exact Nat.le_trans ih (hg.source e he)

/-- No body holds a root. -/
lemma Reaches.eq_of_isRoot {g : Graph} {a r : Nat} (hr : g.IsRoot r) (h : g.Reaches a r) :
    a = r := by
  rcases Relation.ReflTransGen.cases_tail h with rfl | ⟨b, -, -, hcall⟩
  · rfl
  · simp [hr.not_isCall] at hcall

lemma not_foreign_root {g : Graph} {r : Nat} (hr : g.IsRoot r) : ¬ g.Foreign r r := by
  rintro ⟨r', -, hne, hreach⟩
  exact hne (hreach.eq_of_isRoot hr)

/-! ### What is old stays in its bodies -/

namespace Extends

variable {g g' : Graph} (h : Extends g g')
include h

lemma isRoot_iff {r : Nat} (hr : r < g.size) : g'.IsRoot r ↔ g.IsRoot r := by
  unfold IsRoot
  rw [h.node_eq hr]

lemma reaches {a b : Nat} (hreach : g.Reaches a b) : g'.Reaches a b := by
  refine Relation.ReflTransGen.mono (fun u w hstep => ⟨h.leads hstep.1, ?_⟩) a b hreach
  rw [h.vertex?_eq (lt_size_of_isCall hstep.2)]
  exact hstep.2

/-- New edges lead to new vertices, so no path between old ones is new. -/
lemma reaches_iff (hg : Wired g) {a b : Nat} (hb : b < g.size) :
    g'.Reaches a b ↔ g.Reaches a b := by
  refine ⟨fun hreach => ?_, h.reaches⟩
  induction hreach with
  | refl => exact .refl
  | tail _ hstep ih =>
    obtain ⟨⟨e, he, rfl, rfl⟩, hcall⟩ := hstep
    rcases h.edge_cases he with hold | hnew
    · have hle := hg.source e hold
      rw [h.vertex?_eq hb] at hcall
      exact (ih (by omega)).tail ⟨⟨e, hold, rfl, rfl⟩, hcall⟩
    · omega

lemma foreign_iff (hg : Wired g) {r v : Nat} (hv : v < g.size) :
    g'.Foreign r v ↔ g.Foreign r v := by
  refine exists_congr fun r' => ?_
  rw [h.reaches_iff hg hv]
  constructor
  · rintro ⟨hroot, hne, hreach⟩
    exact ⟨(h.isRoot_iff (Nat.lt_of_le_of_lt (hreach.le hg) hv)).mp hroot, hne, hreach⟩
  · rintro ⟨hroot, hne, hreach⟩
    exact ⟨h.isRoot hroot, hne, hreach⟩

end Extends

end Graph

open QCircuit.Graph

section Site

variable {x : Site} {g : Graph} (hcall : x.vertex.isCall)
include hcall

lemma Site.isCall_new : ((x.addTo g).vertex? g.size).any Vertex.isCall := by
  rw [vertex?, Site.node_addTo]
  exact hcall

/-- What leads to the last user of a bit leads to a new user of it. -/
lemma Site.reaches_new {b : Leaf × Wire} (hb : b ∈ x.links (x.root g)) {a u : Nat}
    (hu : g.frontier.lookup b.1 = some u) (hreach : g.Reaches a u) :
    (x.addTo g).Reaches a g.size :=
  ((x.extends_addTo g).reaches hreach).tail ⟨Site.leads hb hu, Site.isCall_new hcall⟩

omit hcall in
/-- A new vertex is reached through its root or through a last user of one of its bits. -/
lemma Site.exists_user_of_reaches (hg : Wired g) {a : Nat} (ha : a < g.size)
    (hreach : (x.addTo g).Reaches a g.size) :
    ∃ u, g.Reaches a u ∧ (x.root g = some u ∨
      ∃ b ∈ x.links (x.root g), g.frontier.lookup b.1 = some u) := by
  have hext := x.extends_addTo g
  generalize hv : g.size = v at hreach
  induction hreach with
  | refl => omega
  | @tail b c hpath hstep ih =>
    obtain ⟨⟨e, he, hsource, htarget⟩, -⟩ := hstep
    rcases Site.mem_edges.mp he with hold | hnew
    · have := hg.target e hold
      omega
    · rcases Site.source_edges hnew with hself | hroot | ⟨l, hl, hu⟩
      · -- a loop, so the vertex was reached before
        exact ih (hself.symm.trans hsource)
      · have hlt : e.source < g.size := (hg.current _ (Site.root_eq_some_iff.mp hroot).2).lt_size
        rw [← hsource] at hpath
        exact ⟨e.source, (hext.reaches_iff hg hlt).mp hpath, Or.inl hroot⟩
      · have hlt : e.source < g.size := hg.user _ (mem_of_lookup hu)
        rw [← hsource] at hpath
        exact ⟨e.source, (hext.reaches_iff hg hlt).mp hpath, Or.inr ⟨l, hl, hu⟩⟩

/-- **A part is reached from elsewhere exactly when the last user of one of its slots is.** -/
theorem Site.foreign_new (hg : Wired g) {r : Nat} (hroot : x.root g = some r) (hr : g.IsRoot r) :
    (x.addTo g).Foreign r g.size ↔
      ∃ b ∈ x.operands, ∃ u, g.frontier.lookup b.1 = some u ∧ g.Foreign r u := by
  have hext := x.extends_addTo g
  have hlinks : x.links (x.root g) = x.operands := by simp [Site.links, hroot]
  constructor
  · rintro ⟨r', hr', hne, hreach⟩
    have hlt : r' < g.size := by
      have hle := hr'.lt_size
      rw [Site.size_addTo] at hle
      have hnew : r' ≠ g.size := by
        rintro rfl
        simpa [hr'.not_isCall] using Site.isCall_new (g := g) hcall
      omega
    rw [hext.isRoot_iff hlt] at hr'
    obtain ⟨u, hu, hself | ⟨b, hb, hlookup⟩⟩ := Site.exists_user_of_reaches hg hlt hreach
    · -- only the root itself leads to the root
      obtain rfl : r = u := Option.some.inj (hroot.symm.trans hself)
      exact absurd (hu.eq_of_isRoot hr) hne
    · exact ⟨b, hlinks ▸ hb, u, hlookup, r', hr', hne, hu⟩
  · rintro ⟨b, hb, u, hlookup, r', hr', hne, hu⟩
    exact ⟨r', hext.isRoot hr', hne, Site.reaches_new hcall (hlinks ▸ hb) hlookup hu⟩

end Site

namespace Document

/-! ### The last users of slots -/

/-- The slots among the bits of a site are those that its statement names. -/
lemma mem_links_iff {st : Statement} {x : Site} (hx : st.site? = some x) {root : Option Nat}
    {l : Leaf} (hl : l.scope = .inner) : l ∈ (x.links root).map (·.1) ↔ l ∈ st.slots := by
  have hcon : l ∈ (x.links root).map (·.1) ↔ l ∈ x.operands.map (·.1) := by
    rw [Site.links, List.map_append, List.mem_append, or_iff_left]
    intro hmem
    split at hmem
    · obtain ⟨b, hb, rfl⟩ := List.mem_map.mp hmem
      obtain ⟨c, -, rfl⟩ := List.mem_map.mp hb
      simp at hl
    · simp at hmem
  rw [hcon]
  cases st with
  | register r => simp [Statement.site?] at hx
  | define d => simp [Statement.site?] at hx
  | callee p =>
    obtain ⟨o, -, rfl⟩ := Option.map_eq_some_iff.mp hx
    simp [Site.operands, Statement.slots, Part.slots, Function.comp_def]
  | _ =>
    obtain ⟨o, -, rfl⟩ := Option.map_eq_some_iff.mp hx
    simp only [Statement.slots, List.not_mem_nil, iff_false]
    intro hmem
    obtain ⟨b, hb, rfl⟩ := List.mem_map.mp hmem
    simp [Site.scope_operands hb] at hl

/-- **A statement becomes the last user of the slots it names**; the others keep theirs. -/
theorem apply_lookup {g g' : Graph} {st : Statement} (hsize : g'.size ≤ 4294967296)
    (hst : st.apply g = .ok g') {l : Leaf} (hl : l.scope = .inner) :
    g'.frontier.lookup l = if l ∈ st.slots then some g.size else g.frontier.lookup l := by
  rcases apply_cases hsize hst with ⟨r, rfl, rfl⟩ | ⟨d, rfl, rfl⟩ | ⟨x, hx, -, rfl⟩
  · simp [Register.lookup_inner hl, Statement.slots]
  · exact Head.lookup_addTo
  · rw [Site.lookup_addTo]
    simp only [mem_links_iff hx hl]

end Document

namespace Graph

open Document

/-- What a root leads to is in the body of `r` alone if it is not foreign to it. -/
lemma inBody_only_iff {g : Graph} {r v : Nat} (hsize : g.size ≤ 4294967296) (hr : g.IsRoot r)
    (hv : (g.vertex? v).any Vertex.isCall) (hrooted : ∃ r', g.IsRoot r' ∧ g.Reaches r' v) :
    (g.InBody r v ∧ ∀ r', g.IsRoot r' → r' ≠ r → ¬ g.InBody r' v) ↔ ¬ g.Foreign r v := by
  constructor
  · rintro ⟨-, honly⟩ ⟨r', hr', hne, hreach⟩
    exact honly r' hr' hne ((inBody_iff hsize hr' hv).mpr hreach)
  · intro hown
    refine ⟨(inBody_iff hsize hr hv).mpr ?_, fun r' hr' hne hbody => ?_⟩
    · obtain ⟨r', hr', hreach⟩ := hrooted
      by_cases hne : r' = r
      · exact hne ▸ hreach
      · exact absurd ⟨r', hr', hne, hreach⟩ hown
    · exact hown ⟨r', hr', hne, (inBody_iff hsize hr' hv).mp hbody⟩

/-- Every slot was used last by a root, or in the body of one. -/
def Rooted (g : Graph) : Prop :=
  ∀ l u, l.scope = .inner → g.frontier.lookup l = some u → ∃ r, g.IsRoot r ∧ g.Reaches r u

/-- What holds of the open definition: a slot was used last in another body exactly when it is not
declared, or shared. -/
structure Tracked (g : Graph) (r : Nat) (d : Head) (shared : List Leaf) : Prop where
  wired : Wired g
  current : g.current = some r
  foreign : ∀ l u, l.scope = .inner → g.frontier.lookup l = some u →
    (g.Foreign r u ↔ l ∉ d.slots ∨ l ∈ shared)

end Graph

namespace Document

lemma Part.scope_slots {p : Part} {l : Leaf} (hl : l ∈ p.slots) : l.scope = .inner := by
  simp only [Part.slots, List.mem_append, List.mem_map] at hl
  rcases hl with ⟨q, -, rfl⟩ | ⟨c, -, rfl⟩ <;> rfl

/-- Every slot of a part that can be added has a last user. -/
lemma exists_link_of_mem_slots {g : Graph} {p : Part} {x : Site}
    (hx : (Statement.callee p).site? = some x)
    (hknown : ∀ b ∈ x.links (x.root g), g.knows b.1) {l : Leaf} (hl : l ∈ p.slots) :
    ∃ b ∈ x.links (x.root g), b.1 = l ∧ ∃ u, g.frontier.lookup l = some u := by
  have hmem : l ∈ (x.links (x.root g)).map (·.1) :=
    (mem_links_iff hx (Part.scope_slots hl)).mpr hl
  obtain ⟨b, hb, rfl⟩ := List.mem_map.mp hmem
  exact ⟨b, hb, rfl, Option.isSome_iff_exists.mp (hknown b hb)⟩

/-- **Every slot was used last by a root or in the body of one**, in every graph that is built. -/
theorem build_rooted {sts : List Statement} {g : Graph}
    (h : sts.foldlM Statement.apply .empty = .ok g) (hsize : g.size ≤ 4294967296) : g.Rooted := by
  refine build_induct (P := fun _ g => g.Rooted) (by simp [Rooted, Graph.empty]) ?_ h hsize
  intro sts st g g' _ hsize hst ih l u hl hu
  have hext := apply_extends hsize hst
  rw [apply_lookup hsize hst hl] at hu
  split at hu
  · next hmem =>
    obtain rfl := Option.some.inj hu
    cases st with
    | define d =>
      obtain rfl := define_apply hst
      exact ⟨g.size, ⟨_, _, _, _, Head.node_root⟩, .refl⟩
    | callee p =>
      obtain ⟨x, hx, hknown, rfl⟩ := callee_apply hsize hst
      obtain ⟨b, hb, rfl, u, hu⟩ := exists_link_of_mem_slots hx hknown hmem
      obtain ⟨r, hr, hreach⟩ := ih b.1 u hl hu
      exact ⟨r, hext.isRoot hr, Site.reaches_new (callee_isCall hx) hb hu hreach⟩
    | register r => simp [Statement.slots] at hmem
    | op i => simp [Statement.slots] at hmem
    | caller i => simp [Statement.slots] at hmem
  · obtain ⟨r, hr, hreach⟩ := ih l u hl hu
    exact ⟨r, hext.isRoot hr, hext.reaches hreach⟩

end Document

/-! ### The open definition -/

namespace Graph

open Document

lemma tracked_nil {d : Head} {g : Graph} (hg : Wired g) (hrooted : g.Rooted) :
    (d.addTo g).Tracked g.size d [] := by
  have hroot : (d.addTo g).IsRoot g.size := ⟨_, _, _, _, Head.node_root⟩
  refine ⟨Head.wired hg, rfl, fun l u hl hu => ?_⟩
  simp only [List.not_mem_nil, or_false]
  rw [Head.lookup_addTo] at hu
  split at hu
  · next hmem =>
    obtain rfl := Option.some.inj hu
    exact iff_of_false (not_foreign_root hroot) (not_not_intro hmem)
  · next hmem =>
    obtain ⟨r, hr, hreach⟩ := hrooted l u hl hu
    have hext := d.extends_addTo g
    exact iff_of_true ⟨r, hext.isRoot hr, Nat.ne_of_lt hr.lt_size, hext.reaches hreach⟩ hmem

section Step

variable {g g' : Graph} {r : Nat} {d : Head} {shared : List Leaf}
  (h : g.Tracked r d shared) (hsize : g'.size ≤ 4294967296)
include h hsize

/-- **A part is reached from elsewhere exactly when it strays.** -/
theorem Tracked.foreign_part {p : Part} (hst : (Statement.callee p).apply g = .ok g') :
    g'.Foreign r g.size ↔ p.Strays d shared := by
  obtain ⟨x, hx, hknown, rfl⟩ := callee_apply hsize hst
  obtain ⟨hscope, -, -⟩ := callee_site? hx
  have hroot : x.root g = some r := by rw [Site.root, if_pos hscope, h.current]
  have hlinks : x.links (x.root g) = x.operands := by simp [Site.links, hroot]
  rw [Site.foreign_new (callee_isCall hx) h.wired hroot (h.wired.current r h.current)]
  constructor
  · rintro ⟨b, hb, u, hu, hforeign⟩
    have hinner : b.1.scope = .inner := (Site.scope_operands hb).trans hscope
    refine ⟨b.1, ?_, (h.foreign b.1 u hinner hu).mp hforeign⟩
    exact (mem_links_iff hx hinner).mp (List.mem_map_of_mem (hlinks ▸ hb))
  · rintro ⟨l, hl, hstray⟩
    obtain ⟨b, hb, rfl, u, hu⟩ := exists_link_of_mem_slots hx hknown hl
    exact ⟨b, hlinks ▸ hb, u, hu, (h.foreign b.1 u (Part.scope_slots hl) hu).mpr hstray⟩

/-- A part shares its slots if it strays. -/
lemma Tracked.part {p : Part} (hst : (Statement.callee p).apply g = .ok g') :
    g'.Tracked r d (d.share shared p) := by
  have hext := apply_extends hsize hst
  have hforeign := h.foreign_part hsize hst
  refine ⟨apply_wired h.wired hsize hst, ?_, fun l u hl hu => ?_⟩
  · obtain ⟨x, -, -, rfl⟩ := callee_apply hsize hst
    exact h.current
  · rw [apply_lookup hsize hst hl] at hu
    rw [Head.mem_share]
    by_cases hmem : l ∈ p.slots
    · obtain rfl : g.size = u := by simpa [Statement.slots, hmem] using hu
      simpa [hmem] using hforeign
    · have hu : g.frontier.lookup l = some u := by simpa [Statement.slots, hmem] using hu
      rw [if_neg hmem, hext.foreign_iff h.wired (h.wired.user _ (mem_of_lookup hu))]
      exact h.foreign l u hl hu

/-- Nothing else changes who uses the slots. -/
lemma Tracked.keep {st : Statement} (hst : st.apply g = .ok g')
    (hdef : st.isDefine = false) (hpart : st.part? = none) : g'.Tracked r d shared := by
  have hext := apply_extends hsize hst
  have hslots : st.slots = [] := by
    cases st <;> simp_all [Statement.isDefine, Statement.part?, Statement.slots]
  refine ⟨apply_wired h.wired hsize hst, ?_, fun l u hl hu => ?_⟩
  · rcases apply_cases hsize hst with ⟨r, rfl, rfl⟩ | ⟨d, rfl, rfl⟩ | ⟨x, -, -, rfl⟩
    · exact h.current
    · simp [Statement.isDefine] at hdef
    · exact h.current
  · rw [apply_lookup hsize hst hl, hslots] at hu
    have hu : g.frontier.lookup l = some u := by simpa using hu
    rw [hext.foreign_iff h.wired (h.wired.user _ (mem_of_lookup hu))]
    exact h.foreign l u hl hu

end Step

end Graph

namespace Document

/-- **Up to the next definition, the slots used in other bodies are the shared ones and those that
are not declared.** -/
theorem build_tracked {d : Head} {sts : List Statement} {g₀ g : Graph} (hg : Wired g₀)
    (hrooted : g₀.Rooted) (h : sts.foldlM Statement.apply (d.addTo g₀) = .ok g)
    (hsize : g.size ≤ 4294967296) (hsts : ∀ st ∈ sts, st.isDefine = false) :
    g.Tracked g₀.size d (d.shared (sts.filterMap Statement.part?)) := by
  revert hsts
  refine build_induct (P := fun sts g => (∀ st ∈ sts, st.isDefine = false) →
    g.Tracked g₀.size d (d.shared (sts.filterMap Statement.part?)))
    (fun _ => tracked_nil hg hrooted) ?_ h hsize
  intro sts st g g' _ hsize hst ih hsts
  have ih := ih fun s hs => hsts s (List.mem_append_left _ hs)
  rw [List.filterMap_append]
  cases hpart : st.part? with
  | none => simpa [hpart] using ih.keep hsize hst (hsts st (by simp)) hpart
  | some p =>
    obtain rfl : st = .callee p := by
      cases st <;> simp_all [Statement.part?]
    simpa [Statement.part?, Head.shared_snoc] using ih.part hsize hst

/-! ### Documents -/

/-- Where there is a definition, there is a last one. -/
lemma exists_last_define {sts : List Statement} (h : sts.any (·.isDefine)) :
    ∃ pre d post, sts = pre ++ .define d :: post ∧ ∀ st ∈ post, st.isDefine = false := by
  induction sts using List.reverseRecOn with
  | nil => simp at h
  | append_singleton sts st ih =>
    cases hst : st.isDefine with
    | true =>
      cases st <;> simp [Statement.isDefine] at hst
      next d => exact ⟨sts, d, [], rfl, by simp⟩
    | false =>
      obtain ⟨pre, d, post, rfl, hpost⟩ := ih (by simpa [hst] using h)
      refine ⟨pre, d, post ++ [st], by simp, fun s hs => ?_⟩
      rcases List.mem_append.mp hs with hs | hs
      · exact hpost s hs
      · rw [List.mem_singleton.mp hs, hst]

/-- A part with a slot comes after a definition. -/
lemma any_isDefine_of_slot {sts : List Statement} {p : Part} {g g' : Graph}
    (h : sts.foldlM Statement.apply .empty = .ok g) (hsize : g'.size ≤ 4294967296)
    (hst : (Statement.callee p).apply g = .ok g') {l : Leaf} (hl : l ∈ p.slots) :
    sts.any (·.isDefine) := by
  have hle := Nat.le_trans (apply_extends hsize hst).size_le hsize
  obtain ⟨x, hx, hknown, -⟩ := callee_apply hsize hst
  obtain ⟨-, -, -, u, hu⟩ := exists_link_of_mem_slots hx hknown hl
  rw [← build_current h hle]
  exact (build_wired h hle).slot _ (mem_of_lookup hu) (Part.scope_slots hl)

/-- The last definition of a document is the open one, and its slots are tracked. -/
lemma build_tracked_last {sts : List Statement} {g : Graph}
    (h : sts.foldlM Statement.apply .empty = .ok g) (hsize : g.size ≤ 4294967296)
    (hdef : sts.any (·.isDefine)) :
    ∃ before d mid, sts = before ++ .define d :: mid ∧ (∀ st ∈ mid, st.isDefine = false) ∧
      g.vertex? (makers before).length = some (.define d.name d.params d.qubits d.clbits) ∧
      g.Tracked (makers before).length d (d.shared (mid.filterMap Statement.part?)) := by
  obtain ⟨before, d, mid, rfl, hmid⟩ := exists_last_define hdef
  obtain ⟨g₀, g₁, hbefore, hst, hrun⟩ := build_split h
  obtain rfl := define_apply hst
  have hext := build_extends hrun hsize
  have hsize₀ := Nat.le_trans ((d.extends_addTo g₀).trans hext).size_le hsize
  refine ⟨before, d, mid, rfl, hmid, ?_⟩
  rw [build_size hbefore hsize₀, hext.vertex?_eq (by simp), vertex?, Head.node_root]
  exact ⟨rfl, build_tracked (build_wired hbefore hsize₀) (build_rooted hbefore hsize₀) hrun hsize
    hmid⟩

/-- **When a part belongs to its own definition alone.** A part with a qubit follows a definition. It
is in the body below the last one, and in no other, exactly when it does not stray. -/
theorem part_inBody_iff {doc : Document} {g : Graph} (hbuild : doc.build = .ok g)
    (hsize : g.size ≤ 4294967296) {pre post : List Statement} {p : Part}
    (hdoc : doc.statements = pre ++ .callee p :: post) (hne : p.qubits ≠ []) :
    ∃ before d mid, pre = before ++ .define d :: mid ∧ (∀ st ∈ mid, st.isDefine = false) ∧
      let root := (makers before).length
      let v := (makers pre).length
      g.vertex? root = some (.define d.name d.params d.qubits d.clbits) ∧
      (Statement.callee p).RendersAt g v ∧
      ((g.InBody root v ∧ ∀ r, g.IsRoot r → r ≠ root → ¬ g.InBody r v) ↔
        ¬ p.Strays d (d.shared (mid.filterMap Statement.part?))) := by
  rw [build, hdoc] at hbuild
  obtain ⟨g₁, g₂, hpre, hst, hpost⟩ := build_split hbuild
  have hext₂ := build_extends hpost hsize
  have hsize₂ := Nat.le_trans hext₂.size_le hsize
  have hext₁ := apply_extends hsize₂ hst
  have hsize₁ := Nat.le_trans hext₁.size_le hsize₂
  obtain ⟨q, hq⟩ := List.exists_mem_of_ne_nil _ hne
  have hl : ⟨.inner, .qubit, q⟩ ∈ p.slots := List.mem_append_left _ (List.mem_map_of_mem hq)
  obtain ⟨before, d, mid, rfl, hmid, hroot, htracked⟩ :=
    build_tracked_last hpre hsize₁ (any_isDefine_of_slot hpre hsize₂ hst hl)
  refine ⟨before, d, mid, rfl, hmid, ?_⟩
  simp only [build_size hpre hsize₁]
  have hisRoot := htracked.wired.current _ htracked.current
  obtain ⟨x, hx, hknown, rfl⟩ := callee_apply hsize₂ hst
  refine ⟨?_, ⟨x, hx, (Site.renders htracked.wired hknown).extends hext₂⟩, ?_⟩
  · rw [(hext₁.trans hext₂).vertex?_eq hisRoot.lt_size, hroot]
  have hlt : g₁.size < (x.addTo g₁).size := by simp
  have hcall : (g.vertex? g₁.size).any Vertex.isCall := by
    rw [hext₂.vertex?_eq hlt]
    exact Site.isCall_new (callee_isCall hx)
  -- the part is now the last user of its first slot, so some root leads to it
  have hlookup : (x.addTo g₁).frontier.lookup ⟨.inner, .qubit, q⟩ = some g₁.size := by
    rw [apply_lookup hsize₂ hst rfl]
    exact if_pos hl
  obtain ⟨r, hr, hreach⟩ := build_rooted (build_snoc.mpr ⟨g₁, hpre, hst⟩) hsize₂ _ _ rfl hlookup
  rw [inBody_only_iff hsize ((hext₁.trans hext₂).isRoot hisRoot) hcall
      ⟨r, hext₂.isRoot hr, hext₂.reaches hreach⟩,
    hext₂.foreign_iff (apply_wired htracked.wired hsize₂ hst) hlt, htracked.foreign_part hsize₂ hst]

/-! ### Two definitions that use one slot -/

/-- Both definitions declare the slot. -/
def sameSlot : Document where
  statements := [.define ⟨"first", 0, 1, 0⟩, .callee ⟨"H", [], [0], [], [], false, none⟩,
    .define ⟨"second", 0, 1, 0⟩, .callee ⟨"X", [], [0], [], [], false, none⟩]

/-- The gate of the second definition is in its body alone. -/
theorem sameSlot_inBody : ∃ g, sameSlot.build = .ok g ∧ g.InBody 2 3 ∧ ¬ g.InBody 0 3 := by
  obtain ⟨g, hbuild⟩ : ∃ g, sameSlot.build = .ok g := ⟨_, rfl⟩
  have hsize : g.size ≤ 4294967296 := by
    obtain rfl := Except.ok.inj hbuild
    decide
  have hroot : g.IsRoot 0 := by
    obtain rfl := Except.ok.inj hbuild
    exact ⟨_, _, _, _, rfl⟩
  have hdoc : sameSlot.statements = [.define ⟨"first", 0, 1, 0⟩,
      .callee ⟨"H", [], [0], [], [], false, none⟩, .define ⟨"second", 0, 1, 0⟩] ++
      [.callee ⟨"X", [], [0], [], [], false, none⟩] := rfl
  obtain ⟨before, d, mid, hpre, hmid, -, -, hiff⟩ := part_inBody_iff hbuild hsize hdoc (by simp)
  refine ⟨g, hbuild, ?_⟩
  rcases before with _ | ⟨_, _ | ⟨_, _ | ⟨_, before⟩⟩⟩
  · -- the first definition is followed by another one
    obtain ⟨-, rfl⟩ := List.cons.inj hpre
    simp [Statement.isDefine] at hmid
  · simp at hpre
  · simp only [List.cons_append, List.nil_append, List.cons.injEq, Statement.define.injEq] at hpre
    obtain ⟨rfl, rfl, rfl, rfl⟩ := hpre
    obtain ⟨hin, honly⟩ := hiff.mpr (by decide)
    exact ⟨hin, honly 0 hroot (by decide)⟩
  · simp at hpre

/-- Only the first one declares the slot. -/
def wideNarrow : Document where
  statements := [.define ⟨"wide", 0, 2, 0⟩, .callee ⟨"H", [], [1], [], [], false, none⟩,
    .define ⟨"narrow", 0, 1, 0⟩, .callee ⟨"X", [], [1], [], [], false, none⟩]

/-- The gate of the second definition is in the body of the first one, and not in its own. -/
theorem wideNarrow_strays : ∃ g, wideNarrow.build = .ok g ∧
    (Statement.callee ⟨"X", [], [1], [], [], false, none⟩).RendersAt g 3 ∧
    g.IsRoot 0 ∧ g.IsRoot 2 ∧ g.InBody 0 3 ∧ ¬ g.InBody 2 3 := by
  refine ⟨_, rfl, ⟨_, rfl, ?_⟩, ⟨_, _, _, _, rfl⟩, ⟨_, _, _, _, rfl⟩, ?_, ?_⟩
  · exact ⟨rfl, rfl, rfl, rfl⟩
  · exact ⟨[1, 3], by cbv, by simp⟩
  · rintro ⟨vs, hvs, hmem⟩
    obtain rfl : [] = vs := Except.ok.inj (Eq.trans (by cbv) hvs)
    simp at hmem

end Document
end QCircuit
