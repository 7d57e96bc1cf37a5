import Mathlib.Data.List.Induction
import Mathlib.Tactic.Common
import QCircuit.Document
import QCircuit.Proofs.Fallible

/-!
What a statement of a document adds to a graph.

A register brings its vertex and one for each bit, a definition its root, and every other
statement a single vertex with the edges that bring in its bits. All new edges lead to new
vertices, so what is known of an old vertex stays true.
-/

namespace QCircuit

namespace Graph

/-- The edges that bring bits from their last users to `v`, one after the other. -/
def wires (v : Nat) : (frontier : List (Leaf × Nat)) → List (Leaf × Wire) → List Edge
  | _, [] => []
  | frontier, (leaf, wire) :: bits =>
    match frontier.lookup leaf with
    | none => wires v frontier bits
    | some u => ⟨u, v, some (wire, leaf.id)⟩ :: wires v ((leaf, v) :: frontier) bits

/-- The users of some bits that `v` is now the last one of. -/
def uses (v : Nat) (bits : List (Leaf × Wire)) : List (Leaf × Nat) :=
  (bits.map fun b => (b.1, v)).reverse

end Graph

/-- A gate or a call, with all the bits it uses. -/
structure Site where
  scope : Scope
  vertex : Vertex
  qubits : List Nat
  clbits : List Nat
  /-- The bits that its condition reads. -/
  conbits : List Nat

namespace Site

def operands (x : Site) : List (Leaf × Wire) :=
  x.qubits.map (fun q => (⟨x.scope, .qubit, q⟩, .qubit)) ++
    x.clbits.map (fun c => (⟨x.scope, .clbit, c⟩, .clbit))

/-- The bits that come from their last users; inside a body the condition is not among them. -/
def links (x : Site) (root : Option Nat) : List (Leaf × Wire) :=
  x.operands ++
    if root.isNone then x.conbits.map (fun c => (⟨.global, .clbit, c⟩, .conbit)) else []

/-- Inside a body the condition bits come from its root. -/
def rootEdges (x : Site) (root : Option Nat) (v : Nat) : List Edge :=
  match root with
  | none => []
  | some r => x.conbits.map fun c => ⟨r, v, some (.conbit, c)⟩

/-- The body that the site stands in. -/
def root (x : Site) (g : Graph) : Option Nat := if x.scope = .inner then g.current else none

/-- All edges to the vertex of the site. -/
def edges (x : Site) (g : Graph) : List Edge :=
  Graph.wires g.size g.frontier (x.links (x.root g)) ++ x.rootEdges (x.root g) g.size

/-- The graph with the site added. -/
def addTo (x : Site) (g : Graph) : Graph :=
  { g with
    nodes := g.nodes.push ⟨x.vertex, x.root g⟩
    edges := g.edges ++ (x.edges g).toArray
    frontier := Graph.uses g.size (x.links (x.root g)) ++ g.frontier }

end Site

/-- The graph with a register added. -/
def Register.addTo (r : Register) (g : Graph) : Graph :=
  { g with
    nodes := g.nodes ++ (⟨.register r, none⟩ :: List.replicate r.count ⟨.init r.kind, none⟩).toArray
    edges := g.edges ++ ((List.range r.count).map fun i => ⟨g.size, g.size + 1 + i, none⟩).toArray
    frontier := ((List.range r.count).map fun i => (r.leaf i, g.size + 1 + i)).reverse ++
      g.frontier }

namespace Document

/-- The slots of a definition. -/
def Head.slots (h : Head) : List Leaf :=
  (List.range h.qubits).map (fun i => ⟨.inner, .qubit, i⟩) ++
    (List.range h.clbits).map fun i => ⟨.inner, .clbit, i⟩

/-- The graph with a definition added. -/
def Head.addTo (h : Head) (g : Graph) : Graph :=
  { g with
    nodes := g.nodes.push ⟨.define h.name h.params h.qubits h.clbits, none⟩
    frontier := (h.slots.map fun l => (l, g.size)).reverse ++ g.frontier
    current := some g.size }

/-- The comparison of a condition, if its comparator is one. -/
def comparison? : Option Guard → Option (Option (Relation × Int))
  | none => some none
  | some c => (Relation.ofSymbol? c.cmp).map fun r => some (r, c.value)

/-- The bits of a condition. -/
def guardBits (condition : Option Guard) : List Nat := (condition.map (·.clbits)).getD []

def Invocation.operation? (i : Invocation) : Option Operation :=
  (comparison? i.condition).map fun comparison =>
    { name := i.name, qubits := i.qubits, params := Graph.literals i.params, comparison }

def Part.operation? (p : Part) : Option Operation := do
  return { name := p.name, qubits := p.qubits, params := ← (p.params.mapM expression).toOption,
           pindex := p.pindex, comparison := ← comparison? p.condition }

/-- What a statement adds, if it is a gate or a call. -/
def Statement.site? : Statement → Option Site
  | .op i => i.operation?.map fun o =>
    ⟨.global, .op o, i.qubits, i.clbits, guardBits i.condition⟩
  | .caller i => i.operation?.map fun o =>
    ⟨.global, .caller o, i.qubits, i.clbits, guardBits i.condition⟩
  | .callee p => p.operation?.map fun o =>
    ⟨.inner, if p.caller then .caller o else .callee o, p.qubits, p.clbits, guardBits p.condition⟩
  | .register _ | .define _ => none

end Document

namespace Graph

/-! ### Linking -/

lemma knows_advance {g : Graph} {leaf l : Leaf} {v : Nat} :
    (g.advance l v).knows leaf = (leaf == l || g.knows leaf) := by
  simp only [knows, advance, List.lookup_cons]
  split <;> simp_all

lemma linkAll_cons (g : Graph) (v : Nat) (leaf : Leaf) (wire : Wire) (bits : List (Leaf × Wire)) :
    g.linkAll v ((leaf, wire) :: bits) = ((g.link? leaf v wire).getD g).linkAll v bits := rfl

lemma linkAll_append (g : Graph) (v : Nat) (xs ys : List (Leaf × Wire)) :
    g.linkAll v (xs ++ ys) = (g.linkAll v xs).linkAll v ys := List.foldl_append ..

/-- Linking bits that all have a last user. -/
lemma linkAll_eq {g : Graph} {v : Nat} {bits : List (Leaf × Wire)}
    (hknown : ∀ b ∈ bits, g.knows b.1) :
    g.linkAll v bits = { g with
      edges := g.edges ++ (wires v g.frontier bits).toArray
      frontier := uses v bits ++ g.frontier } := by
  induction bits generalizing g with
  | nil => simp [linkAll, wires, uses]
  | cons b bits ih =>
    obtain ⟨leaf, wire⟩ := b
    obtain ⟨u, hu⟩ := Option.isSome_iff_exists.mp (hknown _ List.mem_cons_self)
    have hknown' : ∀ b ∈ bits,
        ((g.connect ⟨u, v, some (wire, leaf.id)⟩).advance leaf v).knows b.1 := by
      intro b hb
      rw [knows_advance]
      have := hknown b (List.mem_cons_of_mem _ hb)
      simp only [knows, connect] at this ⊢
      simp [this]
    rw [linkAll_cons, link?, hu, Option.map_some, Option.getD_some, ih hknown']
    simp [wires, hu, uses, advance, connect]

/-- Linking makes no bit known that was not. -/
lemma knows_linkAll (g : Graph) (v : Nat) (bits : List (Leaf × Wire)) (leaf : Leaf) :
    (g.linkAll v bits).knows leaf = g.knows leaf := by
  induction bits generalizing g with
  | nil => rfl
  | cons b bits ih =>
    obtain ⟨l, wire⟩ := b
    rw [linkAll_cons, ih, link?]
    cases hl : g.frontier.lookup l with
    | none => rfl
    | some u =>
      rw [Option.map_some, Option.getD_some, knows_advance]
      by_cases he : leaf = l
      · simp [he, knows, hl]
      · simp [he, knows, connect]

lemma linkCondition_ok {g g' : Graph} {v : Nat} {cs : List Nat}
    (h : g.linkCondition v cs = (g', .ok ())) :
    g' = g.linkAll v (cs.map fun c => (⟨.global, .clbit, c⟩, .conbit)) ∧
      ∀ c ∈ cs, g.knows ⟨.global, .clbit, c⟩ := by
  induction cs generalizing g with
  | nil =>
    obtain ⟨rfl, -⟩ := Prod.mk.inj h
    exact ⟨rfl, by simp⟩
  | cons c cs ih =>
    rw [linkCondition] at h
    split at h
    · simp at h
    · next g₁ hlink =>
      obtain ⟨u, hu, rfl⟩ := Option.map_eq_some_iff.mp hlink
      obtain ⟨rfl, hknown⟩ := ih h
      have hc : g.knows ⟨.global, .clbit, c⟩ := by simp [knows, hu]
      refine ⟨?_, fun d hd => ?_⟩
      · rw [List.map_cons, linkAll_cons, hlink]
        rfl
      · rcases List.mem_cons.mp hd with rfl | hd
        · exact hc
        · have := hknown d hd
          rw [knows_advance] at this
          rcases Bool.or_eq_true_iff.mp this with he | hk
          · rw [eq_of_beq he]
            exact hc
          · exact hk

lemma addCondition_ok {g g' : Graph} {v : Nat} {clbits : List Nat} {relation : Relation}
    {constant : Int} {node : Node} (hv : v < 4294967296) (hnode : g.nodes[v]? = some node)
    (h : g.addCondition v clbits relation constant = (g', .ok ())) :
    (node.root = none ∧ (∀ c ∈ clbits, g.knows ⟨.global, .clbit, c⟩) ∧
      g' = (g.linkAll v (clbits.map fun c => (⟨.global, .clbit, c⟩, .conbit))).setComparison v
        relation constant) ∨
    ∃ r, node.root = some r ∧
      g' = (g.linkFromRoot r v clbits).setComparison v relation constant := by
  unfold addCondition at h
  simp only [Nat.mod_eq_of_lt hv, hnode] at h
  split at h
  · simp at h
  · split at h
    · next r hr =>
      exact Or.inr ⟨r, hr, (Prod.mk.inj h).1.symm⟩
    · next hr =>
      split at h
      · next g₁ hlink =>
        obtain ⟨rfl, hknown⟩ := linkCondition_ok hlink
        exact Or.inl ⟨hr, hknown, (Prod.mk.inj h).1.symm⟩
      · simp at h

@[simp] lemma nodes_linkAll (g : Graph) (v : Nat) (bits : List (Leaf × Wire)) :
    (g.linkAll v bits).nodes = g.nodes := by
  induction bits generalizing g with
  | nil => rfl
  | cons b bits ih =>
    rw [linkAll_cons, ih, link?]
    cases g.frontier.lookup b.1 <;> rfl

lemma linkFromRoot_eq (g : Graph) (root v : Nat) (cs : List Nat) :
    g.linkFromRoot root v cs =
      { g with edges := g.edges ++ (cs.map fun c => ⟨root, v, some (.conbit, c)⟩).toArray } := by
  induction cs generalizing g with
  | nil => simp [linkFromRoot]
  | cons c cs ih =>
    rw [show g.linkFromRoot root v (c :: cs) =
      (g.connect ⟨root, v, some (.conbit, c)⟩).linkFromRoot root v cs from rfl, ih]
    simp [connect]

lemma attach_ok {g g' : Graph} {scope : Scope} {wrap : Operation → Vertex} {op : Operation}
    {clbits : List Nat} {v : Nat} {x : Site} (hs : x.scope = scope) (hq : x.qubits = op.qubits)
    (hc : x.clbits = clbits) (h : g.attach scope wrap op clbits = .ok (g', v)) :
    v = g.size ∧ (∀ b ∈ x.operands, g.knows b.1) ∧
      g' = (g.push (wrap op) (x.root g)).linkAll g.size x.operands := by
  subst hs hc
  have hops : op.qubits.map (fun q => ((⟨x.scope, .qubit, q⟩ : Leaf), Wire.qubit)) ++
      x.clbits.map (fun c => (⟨x.scope, .clbit, c⟩, .clbit)) = x.operands := by
    rw [Site.operands, hq]
  unfold attach at h
  simp only [hops] at h
  split at h
  · simp at h
  · next hfind =>
    obtain ⟨rfl, rfl⟩ := Prod.mk.inj (Except.ok.inj h)
    exact ⟨rfl, fun b hb => by simpa using List.find?_eq_none.mp hfind b hb, rfl⟩

/-- A gate or a call without a condition is one site. -/
lemma attach_addTo {g g' : Graph} {scope : Scope} {wrap : Operation → Vertex} {op : Operation}
    {clbits : List Nat} {v : Nat} {x : Site} (hx : x = ⟨scope, wrap op, op.qubits, clbits, []⟩)
    (h : g.attach scope wrap op clbits = .ok (g', v)) :
    (∀ b ∈ x.links (x.root g), g.knows b.1) ∧ g' = x.addTo g := by
  obtain ⟨-, hknown, rfl⟩ := attach_ok (x := x) (by rw [hx]) (by rw [hx]) (by rw [hx]) h
  have hlinks : x.links (x.root g) = x.operands := by simp [hx, Site.links]
  have hedges : x.rootEdges (x.root g) g.size = [] := by
    unfold Site.rootEdges
    split <;> simp [hx]
  rw [← hlinks] at hknown
  refine ⟨hknown, ?_⟩
  rw [← hlinks, linkAll_eq (g := g.push (wrap op) (x.root g)) hknown, Site.addTo, Site.edges,
    hedges]
  simp [Graph.push, hx]

end Graph

namespace Document

open QCircuit.Graph

lemma relation_ok {s : String} {r : Relation} :
    relation s = .ok r ↔ Relation.ofSymbol? s = some r := by
  unfold relation
  cases Relation.ofSymbol? s <;> simp

/-- A way to make a vertex from an operation. -/
structure Wraps (wrap : Operation → Vertex) : Prop where
  operation? : ∀ o, (wrap o).operation? = some o
  compare? : ∀ o r n, (wrap o).compare? r n = some (wrap { o with comparison := some (r, n) })

/-- Setting the comparison of the newest vertex. -/
lemma setComparison_push {wrap : Operation → Vertex} (hwrap : Wraps wrap) {g g' : Graph}
    {op : Operation} {root : Option Nat} (hnodes : g'.nodes = g.nodes.push ⟨wrap op, root⟩)
    (r : Relation) (n : Int) :
    g'.setComparison g.size r n =
      { g' with nodes := g.nodes.push ⟨wrap { op with comparison := some (r, n) }, root⟩ } := by
  unfold setComparison Graph.size
  congr 1
  rw [hnodes]
  refine Array.ext_getElem? fun i => ?_
  by_cases hi : i = g.nodes.size
  · subst hi
    simp only [Array.getElem?_modify, Array.getElem?_push_size, if_true, Option.map_some,
      hwrap.compare?, Option.getD_some]
  · simp [Array.getElem?_modify, Array.getElem?_push, hi, Ne.symm hi]

/-- A gate or a call with its condition is one site. -/
lemma guarded_ok {g g' : Graph} {scope : Scope} {wrap : Operation → Vertex} {op : Operation}
    {clbits : List Nat} {condition : Option Guard} (hwrap : Wraps wrap) (hop : op.comparison = none)
    (hsize : g.size < 4294967296)
    (h : (g.attach scope wrap op clbits >>= guarded condition) = .ok g') :
    ∃ cmp, comparison? condition = some cmp ∧ ∃ x : Site,
      x = ⟨scope, wrap { op with comparison := cmp }, op.qubits, clbits, guardBits condition⟩ ∧
        (∀ b ∈ x.links (x.root g), g.knows b.1) ∧ g' = x.addTo g := by
  obtain ⟨⟨g₁, v⟩, hattach, hguard⟩ := bind_eq_ok.mp h
  cases condition with
  | none =>
    obtain rfl := Except.ok.inj hguard
    have hnone : { op with comparison := none } = op := by
      cases op
      simp_all
    exact ⟨none, rfl, _, rfl, attach_addTo (by rw [hnone]; rfl) hattach⟩
  | some c =>
    obtain ⟨r, hr, hcond⟩ := bind_eq_ok.mp hguard
    rw [relation_ok] at hr
    obtain ⟨x, hx⟩ : ∃ x : Site, x = ⟨scope, wrap { op with comparison := some (r, c.value) },
      op.qubits, clbits, guardBits (some c)⟩ := ⟨_, rfl⟩
    obtain ⟨rfl, hknown, rfl⟩ := attach_ok (x := x) (by rw [hx]) (by rw [hx]) (by rw [hx]) hattach
    have hconbits : x.conbits = c.clbits := by rw [hx]; rfl
    have hvertex : x.vertex = wrap { op with comparison := some (r, c.value) } := by rw [hx]
    refine ⟨some (r, c.value), by simp [comparison?, hr], x, hx, ?_⟩
    split at hcond
    · next g₂ hadd =>
      obtain rfl := Except.ok.inj hcond
      have hnode : ((g.push (wrap op) (x.root g)).linkAll g.size x.operands).nodes[g.size]? =
          some ⟨wrap op, x.root g⟩ := by
        simp [Graph.push, Graph.size]
      rcases addCondition_ok hsize hnode hadd with ⟨hroot, hcon, rfl⟩ | ⟨root, hroot, rfl⟩
      · have hroot : x.root g = none := hroot
        have hlinks : x.links (x.root g) = x.operands ++
            x.conbits.map fun c => (⟨.global, .clbit, c⟩, .conbit) := by
          simp [Site.links, hroot]
        have hall : ∀ b ∈ x.links (x.root g), g.knows b.1 := by
          intro b hb
          rw [hlinks, List.mem_append] at hb
          rcases hb with hb | hb
          · exact hknown b hb
          · obtain ⟨d, hd, rfl⟩ := List.mem_map.mp hb
            have := hcon d (hconbits ▸ hd)
            rwa [knows_linkAll] at this
        refine ⟨hall, ?_⟩
        have hedges : x.rootEdges (x.root g) g.size = [] := by rw [hroot]; rfl
        rw [← linkAll_append, ← hconbits, ← hlinks,
          setComparison_push hwrap (nodes_linkAll ..),
          linkAll_eq (g := g.push (wrap op) (x.root g)) hall, Site.addTo, Site.edges, hedges,
          hvertex]
        simp [Graph.push]
      · have hroot : x.root g = some root := hroot
        have hlinks : x.links (x.root g) = x.operands := by simp [Site.links, hroot]
        have hedges : x.rootEdges (x.root g) g.size =
            x.conbits.map fun c => ⟨root, g.size, some (.conbit, c)⟩ := by
          rw [hroot]
          rfl
        rw [← hlinks] at hknown
        refine ⟨hknown, ?_⟩
        rw [← hlinks, linkFromRoot_eq, ← hconbits,
          linkAll_eq (g := g.push (wrap op) (x.root g)) hknown,
          setComparison_push hwrap rfl, Site.addTo, Site.edges, hedges, hvertex]
        simp [Graph.push]
    · simp at hcond

/-! ### Statements -/

lemma addRegister_eq (g : Graph) (r : Register) : (g.addRegister r).1 = r.addTo g := by
  have hrun : ∀ n, (List.range n).foldl (fun (g' : Graph) i =>
      ((g'.push (.init r.kind) none).connect ⟨g.size, g'.size, none⟩).advance (r.leaf i) g'.size)
        (g.push (.register r) none) =
      { g with
        nodes := g.nodes ++ (⟨.register r, none⟩ :: List.replicate n ⟨.init r.kind, none⟩).toArray
        edges := g.edges ++ ((List.range n).map fun i => ⟨g.size, g.size + 1 + i, none⟩).toArray
        frontier := ((List.range n).map fun i => (r.leaf i, g.size + 1 + i)).reverse ++
          g.frontier } := by
    intro n
    induction n with
    | zero => simp [Graph.push]
    | succ n ih =>
      rw [List.range_succ, List.foldl_append, ih]
      have hsize : g.nodes.size + (n + 1) = g.nodes.size + 1 + n := by omega
      simp [Graph.push, Graph.connect, Graph.advance, Graph.size, List.replicate_succ', hsize]
  exact hrun r.count

lemma addDefinition_eq (g : Graph) (h : Head) :
    (g.addDefinition h.name h.params h.qubits h.clbits).1 = h.addTo g := by
  have hrun : ∀ (kind : BitKind) (n : Nat) (g' : Graph),
      (List.range n).foldl (fun g' i => g'.advance ⟨.inner, kind, i⟩ g.size) g' =
        { g' with frontier := (((List.range n).map fun i => (⟨.inner, kind, i⟩ : Leaf)).map
          fun l => (l, g.size)).reverse ++ g'.frontier } := by
    intro kind n g'
    induction n with
    | zero => simp
    | succ n ih =>
      rw [List.range_succ, List.foldl_append, ih]
      simp [Graph.advance]
  unfold Graph.addDefinition Head.addTo Head.slots
  simp only [hrun]
  simp [Graph.push]

lemma register_apply {g g' : Graph} {r : Register} (h : (Statement.register r).apply g = .ok g') :
    g' = r.addTo g := by
  rw [← addRegister_eq]
  exact (Except.ok.inj h).symm

lemma define_apply {g g' : Graph} {d : Head} (h : (Statement.define d).apply g = .ok g') :
    g' = d.addTo g := by
  rw [← addDefinition_eq]
  exact (Except.ok.inj h).symm

lemma wraps_op : Wraps .op := ⟨fun _ => rfl, fun _ _ _ => rfl⟩

lemma wraps_caller : Wraps .caller := ⟨fun _ => rfl, fun _ _ _ => rfl⟩

lemma wraps_callee : Wraps .callee := ⟨fun _ => rfl, fun _ _ _ => rfl⟩

lemma nodes_linkCondition (g : Graph) (v : Nat) (cs : List Nat) :
    (g.linkCondition v cs).1.nodes = g.nodes := by
  induction cs generalizing g with
  | nil => rfl
  | cons c cs ih =>
    rw [linkCondition]
    split
    · rfl
    · next g' hlink =>
      obtain ⟨u, -, rfl⟩ := Option.map_eq_some_iff.mp hlink
      exact ih _

lemma size_addCondition (g : Graph) (v : Nat) (cs : List Nat) (r : Relation) (n : Int) :
    (g.addCondition v cs r n).1.size = g.size := by
  unfold addCondition
  simp only
  split
  · rfl
  · split
    · rfl
    · split
      · rw [linkFromRoot_eq]
        simp [setComparison, Graph.size]
      · have hnodes := nodes_linkCondition g (v % 4294967296) cs
        split <;> next heq =>
          rw [heq] at hnodes
          simpa [setComparison, Graph.size] using congrArg Array.size hnodes

lemma size_guarded {g g' : Graph} {v : Nat} {condition : Option Guard}
    (h : guarded condition (g, v) = .ok g') : g'.size = g.size := by
  cases condition with
  | none =>
    obtain rfl := Except.ok.inj h
    rfl
  | some c =>
    obtain ⟨r, -, hcond⟩ := bind_eq_ok.mp h
    have hsize := size_addCondition g v c.clbits r c.value
    split at hcond
    · next heq =>
      obtain rfl := Except.ok.inj hcond
      rw [heq] at hsize
      exact hsize
    · simp at hcond

lemma size_attach {g g' : Graph} {v : Nat} {scope : Scope} {wrap : Operation → Vertex}
    {op : Operation} {clbits : List Nat} (h : g.attach scope wrap op clbits = .ok (g', v)) :
    g'.size = g.size + 1 := by
  obtain ⟨-, -, rfl⟩ :=
    attach_ok (x := ⟨scope, wrap op, op.qubits, clbits, []⟩) rfl rfl rfl h
  simp [Graph.size, Graph.push]

/-- Every statement adds a vertex. -/
lemma size_lt_of_apply {g g' : Graph} {st : Statement} (h : st.apply g = .ok g') :
    g.size < g'.size := by
  cases st with
  | register r => simp [register_apply h, Register.addTo, Graph.size]
  | define d => simp [define_apply h, Head.addTo, Graph.size]
  | op i =>
    obtain ⟨⟨g₁, v⟩, hadd, hguard⟩ := bind_eq_ok.mp h
    rw [size_guarded hguard, size_attach hadd]
    exact Nat.lt_succ_self _
  | caller i =>
    obtain ⟨⟨g₁, v⟩, hadd, hguard⟩ := bind_eq_ok.mp h
    rw [size_guarded hguard, size_attach hadd]
    exact Nat.lt_succ_self _
  | callee p =>
    obtain ⟨params, -, h⟩ := bind_eq_ok.mp h
    obtain ⟨⟨g₁, v⟩, hadd, hguard⟩ := bind_eq_ok.mp h
    rw [size_guarded hguard, size_attach hadd]
    exact Nat.lt_succ_self _

/-- **What a statement adds to a graph**: a register, a definition, or a site whose bits are all
known. -/
theorem apply_cases {g g' : Graph} {st : Statement} (hsize : g'.size ≤ 4294967296)
    (h : st.apply g = .ok g') :
    (∃ r, st = .register r ∧ g' = r.addTo g) ∨ (∃ d, st = .define d ∧ g' = d.addTo g) ∨
      ∃ x, st.site? = some x ∧ (∀ b ∈ x.links (x.root g), g.knows b.1) ∧ g' = x.addTo g := by
  have hlt : g.size < 4294967296 := Nat.lt_of_lt_of_le (size_lt_of_apply h) hsize
  cases st with
  | register r => exact Or.inl ⟨r, rfl, register_apply h⟩
  | define d => exact Or.inr (Or.inl ⟨d, rfl, define_apply h⟩)
  | op i =>
    obtain ⟨cmp, hcmp, x, hx, hknown, rfl⟩ := guarded_ok wraps_op rfl hlt h
    exact Or.inr (Or.inr
      ⟨x, by simp [Statement.site?, Invocation.operation?, hcmp, hx], hknown, rfl⟩)
  | caller i =>
    obtain ⟨cmp, hcmp, x, hx, hknown, rfl⟩ := guarded_ok wraps_caller rfl hlt h
    exact Or.inr (Or.inr
      ⟨x, by simp [Statement.site?, Invocation.operation?, hcmp, hx], hknown, rfl⟩)
  | callee p =>
    obtain ⟨params, hparams, h⟩ := bind_eq_ok.mp h
    have hwrap : Wraps (if p.caller then .caller else .callee) := by
      split
      · exact wraps_caller
      · exact wraps_callee
    obtain ⟨cmp, hcmp, x, hx, hknown, rfl⟩ := guarded_ok hwrap rfl hlt h
    refine Or.inr (Or.inr ⟨x, ?_, hknown, rfl⟩)
    cases hc : p.caller <;>
      simp [Statement.site?, Part.operation?, hcmp, hx, hparams, hc, Except.toOption]

/-! ### Runs of statements -/

lemma build_snoc {sts : List Statement} {st : Statement} {g₀ g' : Graph} :
    (sts ++ [st]).foldlM Statement.apply g₀ = .ok g' ↔
      ∃ g, sts.foldlM Statement.apply g₀ = .ok g ∧ st.apply g = .ok g' := by
  rw [List.foldlM_append, bind_eq_ok]
  simp [bind_pure]

lemma build_split {pre post : List Statement} {st : Statement} {g₀ g : Graph}
    (h : (pre ++ st :: post).foldlM Statement.apply g₀ = .ok g) :
    ∃ g₁ g₂, pre.foldlM Statement.apply g₀ = .ok g₁ ∧ st.apply g₁ = .ok g₂ ∧
      post.foldlM Statement.apply g₂ = .ok g := by
  rw [List.foldlM_append, bind_eq_ok] at h
  obtain ⟨g₁, hpre, h⟩ := h
  rw [List.foldlM_cons, bind_eq_ok] at h
  obtain ⟨g₂, hst, hpost⟩ := h
  exact ⟨g₁, g₂, hpre, hst, hpost⟩

/-- What the start has and every step keeps holds at the end, as long as ids are words. -/
theorem build_induct {g₀ : Graph} {P : List Statement → Graph → Prop} (hnil : P [] g₀)
    (hsnoc : ∀ sts st g g', sts.foldlM Statement.apply g₀ = .ok g → g'.size ≤ 4294967296 →
      st.apply g = .ok g' → P sts g → P (sts ++ [st]) g')
    {sts : List Statement} {g : Graph} (h : sts.foldlM Statement.apply g₀ = .ok g)
    (hsize : g.size ≤ 4294967296) : P sts g := by
  induction sts using List.reverseRecOn generalizing g with
  | nil =>
    obtain rfl := Except.ok.inj h
    exact hnil
  | append_singleton sts st ih =>
    obtain ⟨g₁, h₁, hst⟩ := build_snoc.mp h
    have hle : g₁.size ≤ 4294967296 := Nat.le_trans (Nat.le_of_lt (size_lt_of_apply hst)) hsize
    exact hsnoc sts st g₁ g h₁ hsize hst (ih h₁ hle)

end Document

/-! ### Growing graphs -/

namespace Graph

/-- The bit that an edge brings on a wire. -/
def Edge.on (wire : Wire) (e : Edge) : Option Nat :=
  match e.bit with
  | some (w, b) => if w = wire then some b else none
  | none => none

/-- The edges into a position. -/
def edgesInto (g : Graph) (v : Nat) : List Edge := g.edges.toList.filter (·.target = v)

lemma bitsInto_eq (g : Graph) (v : Nat) (wire : Wire) :
    g.bitsInto v wire = (g.edgesInto v).filterMap (Edge.on wire) := by
  rw [bitsInto, edgesInto, Array.toList_filterMap, List.filterMap_filter]
  refine List.filterMap_congr fun e _ => ?_
  unfold Edge.on
  by_cases hv : e.target = v <;> cases e.bit <;> simp [hv]

lemma mem_bitsInto {g : Graph} {v b : Nat} {wire : Wire} :
    b ∈ g.bitsInto v wire ↔ ∃ e ∈ g.edges, e.target = v ∧ e.bit = some (wire, b) := by
  simp only [bitsInto_eq, edgesInto, List.mem_filterMap, List.mem_filter, Array.mem_toList_iff,
    decide_eq_true_eq, and_assoc]
  refine exists_congr fun e => and_congr_right fun _ => and_congr_right fun _ => ?_
  unfold Edge.on
  cases e.bit <;> grind

lemma mem_incoming {g : Graph} {u v : Nat} :
    u ∈ g.incoming v ↔ ∃ e ∈ g.edges, e.source = u ∧ e.target = v := by
  simp only [incoming, Array.toList_filterMap, List.mem_filterMap, Array.mem_toList_iff]
  refine exists_congr fun e => and_congr_right fun _ => ?_
  by_cases hv : e.target = v <;> simp [hv]

lemma mem_outgoing {g : Graph} {u v : Nat} :
    u ∈ g.outgoing v ↔ ∃ e ∈ g.edges, e.source = v ∧ e.target = u := by
  simp only [outgoing, Array.toList_filterMap, List.mem_filterMap, Array.mem_toList_iff]
  refine exists_congr fun e => and_congr_right fun _ => ?_
  by_cases hv : e.source = v <;> simp [hv]

lemma vertex_word {g : Graph} {v : Nat} {vertex : Vertex} :
    g.vertex v = .ok vertex ↔ g.vertex? (v % 4294967296) = some vertex := by
  unfold Graph.vertex
  cases g.vertex? (v % 4294967296) <;> simp

lemma vertex_ok {g : Graph} (hsize : g.size ≤ 4294967296) {v : Nat} (hv : v < g.size)
    {vertex : Vertex} : g.vertex v = .ok vertex ↔ g.vertex? v = some vertex := by
  rw [vertex_word, Nat.mod_eq_of_lt (Nat.lt_of_lt_of_le hv hsize)]

lemma locate_ok {g : Graph} (hsize : g.size ≤ 4294967296) {v : Nat} (hv : v < g.size) :
    g.locate v = .ok v := by
  unfold locate
  rw [Nat.mod_eq_of_lt (Nat.lt_of_lt_of_le hv hsize), if_pos hv]

lemma incidentBits_ok {g : Graph} (hsize : g.size ≤ 4294967296) {v : Nat} (hv : v < g.size)
    (wire : Wire) : g.incidentBits v wire = .ok (g.bitsInto v wire) := by
  rw [incidentBits, locate_ok hsize hv]
  rfl

/-- A graph with vertices added, and edges to them only. -/
structure Extends (g g' : Graph) : Prop where
  nodes : ∃ ns, g'.nodes.toList = g.nodes.toList ++ ns
  edges : ∃ es, g'.edges.toList = g.edges.toList ++ es ∧ ∀ e ∈ es, g.size ≤ e.target

namespace Extends

variable {g g' g'' : Graph}

lemma refl (g : Graph) : Extends g g := ⟨⟨[], by simp⟩, [], by simp, by simp⟩

lemma size_le (h : Extends g g') : g.size ≤ g'.size := by
  obtain ⟨ns, hns⟩ := h.nodes
  have := congrArg List.length hns
  simp only [Array.length_toList, List.length_append] at this
  unfold Graph.size
  omega

lemma trans (h₁ : Extends g g') (h₂ : Extends g' g'') : Extends g g'' := by
  obtain ⟨ns, hns⟩ := h₁.nodes
  obtain ⟨ns', hns'⟩ := h₂.nodes
  obtain ⟨es, hes, hfresh⟩ := h₁.edges
  obtain ⟨es', hes', hfresh'⟩ := h₂.edges
  refine ⟨⟨ns ++ ns', by rw [hns', hns, List.append_assoc]⟩, es ++ es', ?_, fun e he => ?_⟩
  · rw [hes', hes, List.append_assoc]
  · rcases List.mem_append.mp he with he | he
    · exact hfresh e he
    · exact Nat.le_trans h₁.size_le (hfresh' e he)

lemma node_eq (h : Extends g g') {v : Nat} (hv : v < g.size) : g'.nodes[v]? = g.nodes[v]? := by
  obtain ⟨ns, hns⟩ := h.nodes
  rw [← Array.getElem?_toList, ← Array.getElem?_toList, hns, List.getElem?_append_left (by simpa)]

lemma vertex?_eq (h : Extends g g') {v : Nat} (hv : v < g.size) : g'.vertex? v = g.vertex? v := by
  rw [vertex?, vertex?, h.node_eq hv]

lemma edgesInto_eq (h : Extends g g') {v : Nat} (hv : v < g.size) :
    g'.edgesInto v = g.edgesInto v := by
  obtain ⟨es, hes, hfresh⟩ := h.edges
  have hnone : es.filter (·.target = v) = [] := by
    refine List.filter_eq_nil_iff.mpr fun e he ht => ?_
    have := hfresh e he
    have : e.target = v := by simpa using ht
    omega
  rw [edgesInto, edgesInto, hes, List.filter_append, hnone, List.append_nil]

lemma bitsInto_eq (h : Extends g g') {v : Nat} (hv : v < g.size) (wire : Wire) :
    g'.bitsInto v wire = g.bitsInto v wire := by
  rw [Graph.bitsInto_eq, Graph.bitsInto_eq, h.edgesInto_eq hv]

lemma mem_edges (h : Extends g g') {e : Edge} (he : e ∈ g.edges) : e ∈ g'.edges := by
  obtain ⟨es, hes, -⟩ := h.edges
  rw [← Array.mem_toList_iff, hes]
  exact List.mem_append_left _ (Array.mem_toList_iff.mpr he)

end Extends

/-- All wires of a vertex lead to it. -/
lemma target_wires {v : Nat} {frontier : List (Leaf × Nat)} {bits : List (Leaf × Wire)} {e : Edge}
    (he : e ∈ wires v frontier bits) : e.target = v := by
  induction bits generalizing frontier with
  | nil => simp [wires] at he
  | cons b bits ih =>
    rw [wires] at he
    split at he
    · exact ih he
    · rcases List.mem_cons.mp he with rfl | he
      · rfl
      · exact ih he

end Graph

open QCircuit.Graph

lemma Site.root_eq_some_iff {x : Site} {g : Graph} {r : Nat} :
    x.root g = some r ↔ x.scope = .inner ∧ g.current = some r :=
  Option.ite_none_right_eq_some

/-- An edge of a site brings in a bit from its last user, or one of the condition from the root. -/
lemma Site.mem_wires_or_root {x : Site} {g : Graph} {e : Edge} (he : e ∈ x.edges g) :
    e ∈ wires g.size g.frontier (x.links (x.root g)) ∨
      ∃ r c, x.root g = some r ∧ e = ⟨r, g.size, some (.conbit, c)⟩ := by
  refine (List.mem_append.mp he).imp_right fun hroot => ?_
  unfold Site.rootEdges at hroot
  split at hroot
  · simp at hroot
  · next r hr =>
    obtain ⟨c, -, rfl⟩ := List.mem_map.mp hroot
    exact ⟨r, c, hr, rfl⟩

/-- Outside of a body all edges bring in bits from their last users. -/
lemma Site.edges_of_root {x : Site} {g : Graph} (hroot : x.root g = none) :
    x.edges g = wires g.size g.frontier (x.links (x.root g)) := by
  rw [Site.edges, hroot]
  exact List.append_nil _

lemma Site.target_edges {x : Site} {g : Graph} {e : Edge} (he : e ∈ x.edges g) :
    e.target = g.size := by
  rcases Site.mem_wires_or_root he with he | ⟨r, c, -, rfl⟩
  · exact target_wires he
  · rfl

lemma Register.extends_addTo (r : Register) (g : Graph) : Extends g (r.addTo g) := by
  refine ⟨⟨⟨.register r, none⟩ :: List.replicate r.count ⟨.init r.kind, none⟩, ?_⟩,
    (List.range r.count).map fun i => ⟨g.size, g.size + 1 + i, none⟩, ?_, fun e he => ?_⟩
  · simp [Register.addTo]
  · simp [Register.addTo]
  obtain ⟨i, -, rfl⟩ := List.mem_map.mp he
  simp only
  omega

lemma Document.Head.extends_addTo (d : Document.Head) (g : Graph) : Extends g (d.addTo g) :=
  ⟨⟨[⟨.define d.name d.params d.qubits d.clbits, none⟩], by simp [Document.Head.addTo]⟩, [],
    by simp [Document.Head.addTo], by simp⟩

lemma Site.extends_addTo (x : Site) (g : Graph) : Extends g (x.addTo g) :=
  ⟨⟨[⟨x.vertex, x.root g⟩], by simp [Site.addTo]⟩, x.edges g, by simp [Site.addTo],
    fun _ he => Nat.le_of_eq (Site.target_edges he).symm⟩

lemma Document.apply_extends {g g' : Graph} {st : Document.Statement}
    (hsize : g'.size ≤ 4294967296) (h : st.apply g = .ok g') : Extends g g' := by
  rcases apply_cases hsize h with ⟨r, -, rfl⟩ | ⟨d, -, rfl⟩ | ⟨x, -, -, rfl⟩
  · exact r.extends_addTo g
  · exact d.extends_addTo g
  · exact x.extends_addTo g

lemma Document.build_extends {g g' : Graph} {sts : List Document.Statement}
    (h : sts.foldlM Document.Statement.apply g = .ok g') (hsize : g'.size ≤ 4294967296) :
    Extends g g' :=
  build_induct (P := fun _ g' => Extends g g') (.refl g)
    (fun _ _ _ _ _ hsize hst ih => ih.trans (apply_extends hsize hst)) h hsize

end QCircuit
