import QCircuit.Graph.Operation
import QCircuit.Proofs.Expr.Arity
import QCircuit.Proofs.Fallible

/-!
Index lists.

The expressions of an operation read the index list one after the other: each takes a segment of its
own, which starts where the segments of the expressions before it end, and its value depends on
nothing else of the list. The marker for the whole list of the caller's parameters stands for the
indices `0, 1, …` up to the arity, no more and no less.
-/

namespace QCircuit.Operation

/-! ### Segments -/

/-- The entries that an expression takes from an index list: none if it has no arguments, a marker
alone, otherwise one for each argument, as far as there are any. -/
def segment (e : Expr) (index : List Int) : List Int :=
  if e.arity = 0 then [] else if index.head? = some (-1) then [-1] else index.take e.arity

/-- The entries behind those. -/
def after (e : Expr) (index : List Int) : List Int := index.drop (segment e index).length

/-- The segments that expressions take one after the other. -/
def segmentsFrom : List Expr → List Int → List (List Int)
  | [], _ => []
  | e :: es, index => segment e index :: segmentsFrom es (after e index)

/-- The entries that no expression takes. -/
def unreadFrom : List Expr → List Int → List Int
  | [], index => index
  | e :: es, index => unreadFrom es (after e index)

/-- The segments of an operation, one for each expression. -/
def segments (op : Operation) : List (List Int) := segmentsFrom op.params op.pindex

def unread (op : Operation) : List Int := unreadFrom op.params op.pindex

lemma segment_append_after (e : Expr) (index : List Int) :
    segment e index ++ after e index = index := by
  unfold after segment
  split
  · rfl
  · split
    · next hmarker =>
      obtain ⟨rest, rfl⟩ := List.head?_eq_some_iff.mp hmarker
      rfl
    · -- fewer entries than arguments are all taken
      rw [List.length_take]
      rcases Nat.le_total e.arity index.length with h | h
      · rw [Nat.min_eq_left h, List.take_append_drop]
      · rw [Nat.min_eq_right h, List.take_of_length_le h, List.drop_length, List.append_nil]

lemma segmentsFrom_flatten (es : List Expr) (index : List Int) :
    (segmentsFrom es index).flatten ++ unreadFrom es index = index := by
  induction es generalizing index with
  | nil => rfl
  | cons e es ih =>
    rw [segmentsFrom, unreadFrom, List.flatten_cons, List.append_assoc, ih, segment_append_after]

/-! ### The value on a segment -/

section Value

variable {caller : List Float} {i : Nat} {e : Expr} {index : List Int}

/-- The value of expression number `i` on entries of its own. -/
def valueOn (caller : List Float) (i : Nat) (e : Expr) (entries : List Int) :
    Except ParameterFault Float := do
  match (← next caller i entries e).1 with
  | none => .error (.undefined i e)
  | some x => return x

lemma arguments_take (caller : List Float) (i arity n : Nat) (index : List Int) :
    arguments caller i arity n index =
      (arguments caller i arity n (index.take n)).map fun p => (p.1, index.drop n) := by
  induction n generalizing index with
  | zero => rfl
  | succ n ih =>
    cases index with
    | nil => rfl
    | cons k index =>
      simp only [List.take_succ_cons, List.drop_succ_cons, arguments]
      cases select? caller k with
      | none => rfl
      | some x =>
        rw [ih index]
        cases arguments caller i arity n (index.take n) <;> rfl

/-- Without a marker ahead, an expression selects its arguments one by one. -/
lemma next_of_head_ne (he : e.arity ≠ 0) (hmarker : index.head? ≠ some (-1)) :
    next caller i index e =
      (arguments caller i e.arity e.arity index).map fun p => (e.evaluate p.1, p.2) := by
  unfold next
  rw [if_neg he]
  split
  · simp at hmarker
  · cases arguments caller i e.arity e.arity index <;> rfl

/-- An expression reads its segment and nothing else, and leaves what comes after it. -/
lemma next_eq (caller : List Float) (i : Nat) (e : Expr) (index : List Int) :
    next caller i index e =
      (next caller i (segment e index) e).map fun p => (p.1, after e index) := by
  by_cases he : e.arity = 0
  · simp [next, segment, after, he, Except.map]
  by_cases hmarker : index.head? = some (-1)
  · obtain ⟨rest, rfl⟩ := List.head?_eq_some_iff.mp hmarker
    simp [next, segment, after, he, Except.map]
  · have hseg : segment e index = index.take e.arity := by rw [segment, if_neg he, if_neg hmarker]
    have hafter : after e index = index.drop e.arity := by
      rw [after, hseg, List.length_take]
      rcases Nat.le_total e.arity index.length with h | h
      · rw [Nat.min_eq_left h]
      · rw [Nat.min_eq_right h, List.drop_length, List.drop_of_length_le h]
    have hhead : (index.take e.arity).head? ≠ some (-1) := by
      rwa [List.head?_take, if_neg he]
    rw [hseg, hafter, next_of_head_ne he hmarker, next_of_head_ne he hhead, arguments_take]
    cases arguments caller i e.arity e.arity (index.take e.arity) <;> rfl

/-- One expression after the other: the value of the first on its segment, then the others on what
comes after it. -/
lemma resolveFrom_cons (caller : List Float) (i : Nat) (index : List Int) (e : Expr)
    (es : List Expr) :
    resolveFrom caller i index (e :: es) = (do
      let x ← valueOn caller i e (segment e index)
      let xs ← resolveFrom caller (i + 1) (after e index) es
      return x :: xs) := by
  rw [resolveFrom, next_eq, valueOn]
  rcases next caller i (segment e index) e with fault | ⟨_ | x, rest⟩ <;> rfl

lemma resolveFrom_eq_mapM (caller : List Float) (i : Nat) (index : List Int) (es : List Expr) :
    resolveFrom caller i index es =
      ((es.zip (segmentsFrom es index)).zipIdx i).mapM fun p => valueOn caller p.2 p.1.1 p.1.2 := by
  induction es generalizing i index with
  | nil => rfl
  | cons e es ih =>
    rw [resolveFrom_cons, segmentsFrom, List.zip_cons_cons, List.zipIdx_cons, List.mapM_cons, ih]

/-- Expression number `k` starts where the segments before it end, and stops at the end of its
own. -/
lemma next_at_segment {es : List Expr} {k : Nat} {entries : List Int} (he : es[k]? = some e)
    (hentries : (segmentsFrom es index)[k]? = some entries) :
    next caller i (((segmentsFrom es index).drop k).flatten ++ unreadFrom es index) e =
      (next caller i entries e).map fun p =>
        (p.1, ((segmentsFrom es index).drop (k + 1)).flatten ++ unreadFrom es index) := by
  induction es generalizing index k with
  | nil => simp at he
  | cons e' es ih =>
    cases k with
    | zero =>
      obtain rfl : e' = e := by simpa using he
      obtain rfl : segment e' index = entries := by simpa [segmentsFrom] using hentries
      have hrest : ((segmentsFrom (e' :: es) index).drop 1).flatten ++
          unreadFrom (e' :: es) index = after e' index := segmentsFrom_flatten es (after e' index)
      rw [List.drop_zero, segmentsFrom_flatten, hrest, next_eq]
    | succ k => exact ih he hentries

end Value

/-- The expressions of an operation read the index list in turn: it falls into their segments and
what is left over, expression number `k` starts where the segments before it end and stops at the
end of its own, and the values are those on the segments. -/
structure ReadsInTurn (op : Operation) (caller : List Float) : Prop where
  split : op.pindex = op.segments.flatten ++ op.unread
  step : ∀ k e entries, op.params[k]? = some e → op.segments[k]? = some entries →
    next caller k ((op.segments.drop k).flatten ++ op.unread) e =
      (next caller k entries e).map fun p =>
        (p.1, (op.segments.drop (k + 1)).flatten ++ op.unread)
  values : op.resolve caller =
    (op.params.zip op.segments).zipIdx.mapM fun p => valueOn caller p.2 p.1.1 p.1.2

lemma readsInTurn (op : Operation) (caller : List Float) : op.ReadsInTurn caller where
  split := (segmentsFrom_flatten op.params op.pindex).symm
  step := fun _ _ _ he hentries => next_at_segment he hentries
  values := resolveFrom_eq_mapM caller 0 op.pindex op.params

/-! ### Markers spelled out -/

/-- A marker as the indices it stands for; other entries as they are. -/
def spell (e : Expr) (entries : List Int) : List Int :=
  if entries = [-1] then (List.range e.arity).map Int.ofNat else entries

/-- An index list with the markers that these expressions take spelled out. -/
def spellFrom : List Expr → List Int → List Int
  | [], index => index
  | e :: es, index => spell e (segment e index) ++ spellFrom es (after e index)

/-- The operation with the markers of its first `n` expressions spelled out. -/
def spelled (op : Operation) (n : Nat) : Operation :=
  { op with pindex := spellFrom (op.params.take n) op.pindex }

lemma segment_nil (e : Expr) : segment e [] = [] := by simp [segment]

lemma spellFrom_nil (es : List Expr) : spellFrom es [] = [] := by
  induction es with
  | nil => rfl
  | cons e es ih => simpa [spellFrom, segment_nil, after, spell] using ih

section Spell

variable {caller : List Float} {i s n : Nat} {e : Expr} {index rest : List Int}

/-- The three kinds of segments. -/
lemma segment_cases (e : Expr) (index : List Int) :
    (e.arity = 0 ∧ segment e index = []) ∨
      (e.arity ≠ 0 ∧ segment e index = [-1]) ∨
      (e.arity ≠ 0 ∧ segment e index = index.take e.arity ∧ index.head? ≠ some (-1)) := by
  unfold segment
  split
  · next he => exact .inl ⟨he, rfl⟩
  · next he =>
    split
    · exact .inr (.inl ⟨he, rfl⟩)
    · next hmarker => exact .inr (.inr ⟨he, rfl, hmarker⟩)

lemma spell_of_head_ne (h : index.head? ≠ some (-1)) : spell e (index.take n) = index.take n := by
  refine if_neg fun hc => h ?_
  cases index with
  | nil => simp at hc
  | cons k index =>
    cases n with
    | zero => simp at hc
    | succ n => simpa using congrArg List.head? hc

/-- No marker stands ahead of indices that are spelled out. -/
lemma head?_range_ne (hn : n ≠ 0) (rest : List Int) :
    ((List.range n).map Int.ofNat ++ rest).head? ≠ some (-1) := by
  obtain ⟨k, rfl⟩ := Nat.exists_eq_succ_of_ne_zero hn
  simp [List.range_succ_eq_map]

/-- A segment with its marker spelled out is a segment again, unless the list ended in it and now
goes on. -/
lemma segment_spell (hrest : after e index = [] → rest = []) :
    segment e (spell e (segment e index) ++ rest) = spell e (segment e index) := by
  rcases segment_cases e index with ⟨he, hseg⟩ | ⟨he, hseg⟩ | ⟨he, hseg, hmarker⟩
  · simp [segment, he, spell]
  · rw [hseg, spell, if_pos rfl, segment, if_neg he, if_neg (head?_range_ne he rest),
      List.take_left' (by simp)]
  · rw [hseg, spell_of_head_ne hmarker]
    rcases Nat.lt_or_ge index.length e.arity with hlen | hlen
    · have hshort : index.take e.arity = index := List.take_of_length_le (Nat.le_of_lt hlen)
      rw [hrest (by simp [after, hseg, hshort]), List.append_nil, hshort, segment, if_neg he,
        if_neg hmarker, hshort]
    · have hhead : (index.take e.arity ++ rest).head? ≠ some (-1) := by
        obtain ⟨k, hk⟩ := Nat.exists_eq_succ_of_ne_zero he
        cases index with
        | nil => simp [hk] at hlen
        | cons x index => simpa [hk] using hmarker
      rw [segment, if_neg he, if_neg hhead, List.take_left' (by simp [Nat.min_eq_left hlen])]

lemma after_spell (hrest : after e index = [] → rest = []) :
    after e (spell e (segment e index) ++ rest) = rest := by
  rw [after, segment_spell hrest, List.drop_left]

/-- Consecutive indices select the parameters of the caller from the first one on, if it has that
many. -/
lemma arguments_range (arity : Nat) (h : s + n ≤ caller.length) :
    arguments caller i arity n ((List.range' s n).map Int.ofNat) =
      .ok ((caller.drop s).take n, []) := by
  induction n generalizing s with
  | zero => rfl
  | succ n ih =>
    have hs : s < caller.length := by omega
    have hselect : select? caller (Int.ofNat s) = some caller[s] := by simp [select?, hs]
    rw [List.range'_succ, List.map_cons, arguments, hselect, List.drop_eq_getElem_cons hs,
      List.take_succ_cons]
    simp only [ih (show s + 1 + n ≤ caller.length by omega)]
    rfl

/-- It fails if the caller has fewer. -/
lemma arguments_range_error (caller : List Float) (i arity : Nat) (hs : s ≤ caller.length)
    (h : caller.length < s + n) :
    ∃ fault, arguments caller i arity n ((List.range' s n).map Int.ofNat) = .error fault := by
  induction n generalizing s with
  | zero => omega
  | succ n ih =>
    rw [List.range'_succ, List.map_cons, arguments]
    rcases Nat.lt_or_ge s caller.length with hlt | hge
    · have hselect : select? caller (Int.ofNat s) = some caller[s] := by simp [select?, hlt]
      obtain ⟨fault, hfault⟩ := ih hlt (by omega)
      exact ⟨fault, by rw [hselect]; simp only [hfault]; rfl⟩
    · have hselect : select? caller (Int.ofNat s) = none := by simp [select?, hge]
      exact ⟨_, by rw [hselect]⟩

/-- The indices below the arity have the value of a marker. -/
lemma valueOn_range (he : e.arity ≠ 0) {x : Float} :
    valueOn caller i e ((List.range e.arity).map Int.ofNat) = .ok x ↔
      valueOn caller i e [-1] = .ok x := by
  have hhead : ((List.range e.arity).map Int.ofNat).head? ≠ some (-1) := by simp
  have hmarker : next caller i [-1] e = .ok (e.evaluate caller, []) := by simp [next, he]
  rw [valueOn, valueOn, next_of_head_ne he hhead, hmarker, List.range_eq_range']
  rcases Nat.lt_or_ge caller.length e.arity with hlen | hlen
  · -- a parameter is missing: no index selects it, and the whole list has no value
    obtain ⟨fault, hfault⟩ := arguments_range_error (s := 0) (n := e.arity) caller i e.arity
      (Nat.zero_le _) (by omega)
    rw [hfault, Expr.evaluate_eq_none_of_length_lt hlen]
    simp [Except.map, bind, Except.bind]
  · rw [arguments_range e.arity (by omega), List.drop_zero]
    simp only [Except.map, Expr.evaluate_take (Nat.le_refl e.arity)]

lemma valueOn_spell {x : Float} :
    valueOn caller i e (spell e (segment e index)) = .ok x ↔
      valueOn caller i e (segment e index) = .ok x := by
  rcases segment_cases e index with ⟨he, hseg⟩ | ⟨he, hseg⟩ | ⟨he, hseg, hmarker⟩
  · rw [hseg]
    rfl
  · rw [hseg, spell, if_pos rfl, valueOn_range he]
  · rw [hseg, spell_of_head_ne hmarker]

end Spell

/-- Nothing is left to be read where nothing was. -/
lemma spellFrom_eq_nil {e : Expr} {es : List Expr} {index : List Int} (h : after e index = []) :
    spellFrom es (after e index) = [] := by
  rw [h, spellFrom_nil]

/-- The segments of a list with markers spelled out are those of the list, each spelled out. -/
lemma segmentsFrom_spellFrom (es : List Expr) (n : Nat) (index : List Int) :
    segmentsFrom es (spellFrom (es.take n) index) =
        List.zipWith spell (es.take n) (segmentsFrom es index) ++ (segmentsFrom es index).drop n ∧
      unreadFrom es (spellFrom (es.take n) index) = unreadFrom es index := by
  induction es generalizing n index with
  | nil => simp [segmentsFrom, spellFrom]
  | cons e es ih =>
    cases n with
    | zero => simp [spellFrom]
    | succ n =>
      obtain ⟨hsegments, hunread⟩ := ih n (after e index)
      rw [List.take_succ_cons, spellFrom, segmentsFrom, segmentsFrom, unreadFrom, unreadFrom,
        segment_spell spellFrom_eq_nil, after_spell spellFrom_eq_nil, hsegments, hunread]
      exact ⟨rfl, rfl⟩

lemma resolveFrom_spellFrom (caller : List Float) (es : List Expr) (n i : Nat) (index : List Int)
    (values : List Float) :
    resolveFrom caller i (spellFrom (es.take n) index) es = .ok values ↔
      resolveFrom caller i index es = .ok values := by
  induction es generalizing n i index values with
  | nil => simp [resolveFrom]
  | cons e es ih =>
    cases n with
    | zero => rfl
    | succ n =>
      rw [List.take_succ_cons, spellFrom, resolveFrom_cons, resolveFrom_cons,
        segment_spell spellFrom_eq_nil, after_spell spellFrom_eq_nil]
      simp only [bind_eq_ok, valueOn_spell, ih]

/-- **A marker stands for the indices below the arity.** Spelling out the markers of the first `n`
expressions, for any `n`, changes no value and makes nothing succeed or fail that did not; so it may
be those that a run takes before it fails, or all of them. With and without markers the expressions
read the index list in turn, and the segments of the new list are those of the old one, spelled
out. -/
theorem resolve_spelled (op : Operation) (caller : List Float) (n : Nat) :
    (∀ values, (op.spelled n).resolve caller = .ok values ↔ op.resolve caller = .ok values) ∧
      op.ReadsInTurn caller ∧ (op.spelled n).ReadsInTurn caller ∧
      (op.spelled n).segments =
        List.zipWith spell (op.params.take n) op.segments ++ op.segments.drop n ∧
      (op.spelled n).unread = op.unread :=
  ⟨resolveFrom_spellFrom caller op.params n 0 op.pindex, op.readsInTurn caller,
    (op.spelled n).readsInTurn caller, segmentsFrom_spellFrom op.params n op.pindex⟩

/-- An operation whose first and third expression take a marker. -/
def marked : Operation := ⟨"Rx", [0], [.arg 1, .pi, .arg 0], [-1, -1, -1, 7], none⟩

/-- The values stay when both are spelled out, and so does the marker that no expression takes. -/
theorem marked_spelled :
    marked.segments = [[-1], [], [-1]] ∧
      marked.resolve [0.5, 0.25] = .ok [0.25, QCircuit.pi, 0.5] ∧
      (marked.spelled 3).pindex = [0, 1, 0, -1, 7] ∧
      (marked.spelled 3).segments = [[0, 1], [], [0]] ∧
      (marked.spelled 3).resolve [0.5, 0.25] = .ok [0.25, QCircuit.pi, 0.5] := by
  have hsegments : marked.segments = [[-1], [], [-1]] := by decide
  have hvalues : marked.resolve [0.5, 0.25] = .ok [0.25, QCircuit.pi, 0.5] := rfl
  obtain ⟨hresolve, -, -, hspelled, -⟩ := resolve_spelled marked [0.5, 0.25] 3
  refine ⟨hsegments, hvalues, by decide, ?_, (hresolve _).mpr hvalues⟩
  rw [hspelled, hsegments]
  rfl

end QCircuit.Operation
