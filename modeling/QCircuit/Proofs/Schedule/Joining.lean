import QCircuit.Proofs.Schedule.Blocks

/-!
Blocks side by side.

Blocks of calls are joined by giving each its own rows and clbits, behind those of the blocks
before it, and making all the calls on one schedule. A circuit comes out exactly when each block
has one on its own, and it is these circuits side by side: a later block only starts later.
-/

namespace QCircuit

/-! ### Where blocks lie -/

namespace Extent

variable {sizes : List Extent}

/-- Every row belongs to a block. -/
lemma exists_block {q : Nat} (h : q < (total sizes).qubits) :
    ∃ (k : Nat) (e : Extent) (r : Nat), sizes[k]? = some e ∧ r < e.qubits ∧
      q = (before sizes k).qubits + r := by
  induction sizes generalizing q with
  | nil => simp [total] at h
  | cons e sizes ih =>
    rw [total_cons, qubits_add] at h
    by_cases hq : q < e.qubits
    · exact ⟨0, e, q, rfl, hq, (Nat.zero_add q).symm⟩
    · obtain ⟨k, e', r, hk, hr, heq⟩ := ih (q := q - e.qubits) (by omega)
      refine ⟨k + 1, e', r, hk, hr, ?_⟩
      rw [before_succ, qubits_add]
      omega

lemma qubits_before_succ {k : Nat} {e : Extent} (h : sizes[k]? = some e) :
    (before sizes (k + 1)).qubits = (before sizes k).qubits + e.qubits := by
  simp [before, total, List.take_add_one, h]

lemma qubits_before_mono {k l : Nat} (h : k ≤ l) :
    (before sizes k).qubits ≤ (before sizes l).qubits := by
  obtain ⟨m, rfl⟩ := Nat.exists_eq_add_of_le h
  simp [before, total, List.take_add]

end Extent

/-- Whether a gate lies in block `k`, that is, all its qubits do. -/
def Gate.liesIn (sizes : List Extent) (k : Nat) (g : Gate) : Bool :=
  g.qubits.all fun q =>
    (Extent.before sizes k).qubits ≤ q && q < (Extent.before sizes (k + 1)).qubits

lemma Gate.liesIn_iff {sizes : List Extent} {k : Nat} {g : Gate} : g.liesIn sizes k = true ↔
    ∀ q ∈ g.qubits, (Extent.before sizes k).qubits ≤ q ∧
      q < (Extent.before sizes (k + 1)).qubits := by
  simp [liesIn]

/-- No qubit lies in two blocks. -/
lemma Gate.eq_of_liesIn {sizes : List Extent} {k l : Nat} {g : Gate} {q : Nat} (hq : q ∈ g.qubits)
    (hk : g.liesIn sizes k) (hl : g.liesIn sizes l) : k = l := by
  have h₁ := Gate.liesIn_iff.mp hk q hq
  have h₂ := Gate.liesIn_iff.mp hl q hq
  rcases Nat.lt_trichotomy k l with hlt | rfl | hlt
  · have hle : (Extent.before sizes (k + 1)).qubits ≤ (Extent.before sizes l).qubits :=
      Extent.qubits_before_mono hlt
    omega
  · rfl
  · have hle : (Extent.before sizes (l + 1)).qubits ≤ (Extent.before sizes k).qubits :=
      Extent.qubits_before_mono hlt
    omega

/-- The bits of a circuit. -/
def Circuit.size (c : Circuit) : Extent := ⟨c.qubits, c.clbits⟩

/-- A circuit that consists of others: every gate that does something lies in the block of one of
them, and in its block each has its gates in their order. -/
structure SideBySide (c : Circuit) (cs : List Circuit) : Prop where
  block : ∀ g ∈ nonIdentity c.gates,
    ∃! k, k < cs.length ∧ g.liesIn (cs.map Circuit.size) k
  gates : ∀ (k : Nat) (part : Circuit), cs[k]? = some part →
    (nonIdentity c.gates).filter (·.liesIn (cs.map Circuit.size) k) =
      (nonIdentity part.gates).map (Gate.raise (.before (cs.map Circuit.size) k))

namespace Schedule

/-! ### What a block shows of a schedule -/

lemma Sound.lt_length {s : Schedule} (hs : s.Sound) {q t o : Nat} {g : Gate}
    (hq : q < s.rows.length) (h : s.cellAt q t = .gate g) (ho : o ∈ g.qubits) :
    o < s.rows.length := by
  rcases hs.within h with rfl | hfree
  · rwa [show o = q by simpa [Gate.identity] using ho]
  · by_contra hge
    have := hfree o ho
    rw [free_outside (Nat.le_of_not_lt hge)] at this
    omega

section Shows

variable {d : Extent} {base : Nat} {s w : Schedule} (h : Shows d base s w)
include h

lemma Shows.measured {q : Nat} (hq : q < s.rows.length) (t : Nat) :
    w.measured (d.qubits + q) (base + t) = s.measured q t := by
  rw [Bool.eq_iff_iff, measured_iff, measured_iff]
  constructor
  · rintro ⟨u, hu, hm⟩
    rcases Nat.lt_or_ge u base with hlt | hge
    · rw [h.idle q hq u hlt] at hm
      simp at hm
    · obtain ⟨v, rfl⟩ := Nat.exists_eq_add_of_le hge
      rw [h.cellAt q hq, Cell.isMeasure_raise] at hm
      exact ⟨v, by omega, hm⟩
  · rintro ⟨u, hu, hm⟩
    refine ⟨base + u, by omega, ?_⟩
    rw [h.cellAt q hq, Cell.isMeasure_raise]
    exact hm

/-- A measured qubit is used in the block when it is used in what the block shows. -/
lemma Shows.legalAt (hs : s.Sound) {q : Nat} (hq : q < s.rows.length) (t : Nat) :
    w.LegalAt (base + t) (d.qubits + q) ↔ s.LegalAt t q := by
  unfold LegalAt
  rw [h.cellAt q hq, h.measured hq]
  cases hcell : s.cellAt q t with
  | reserved => simp [Cell.raise]
  | gate g =>
    have hqubits : (∀ o ∈ (g.raise d).qubits, w.measured o (base + t) = false) ↔
        ∀ o ∈ g.qubits, s.measured o t = false := by
      rw [Gate.qubits_raise, List.forall_mem_map]
      refine forall₂_congr fun o ho => ?_
      rw [h.measured (hs.lt_length hq hcell ho)]
    simp only [Cell.raise, Cell.gate.injEq, forall_eq', Gate.isIdentity_raise, hqubits]

lemma Shows.active {q : Nat} (hq : q < s.rows.length) (t : Nat) :
    w.active (base + t) (d.qubits + q) = (s.active t q).map (Gate.raise d) := by
  rw [Schedule.active, h.cellAt q hq, Cell.active_raise, Schedule.active]

/-- The gates in the rows of a block. -/
lemma Shows.filterMap_active (t : Nat) :
    (List.range' d.qubits s.rows.length).filterMap (w.active (base + t)) =
      (s.workAt t).map (Gate.raise d) := by
  rw [List.range'_eq_map_range, List.filterMap_map, workAt, List.map_filterMap]
  refine List.filterMap_congr fun q hq => ?_
  exact h.active (List.mem_range.mp hq) t

lemma Shows.filterMap_active_of_lt {t : Nat} (ht : t < base) :
    (List.range' d.qubits s.rows.length).filterMap (w.active t) = [] := by
  rw [List.range'_eq_map_range, List.filterMap_map]
  refine List.filterMap_eq_nil_iff.mpr fun q hq => ?_
  exact active_of_idle (h.idle q (List.mem_range.mp hq) t ht)

/-- A gate in a row of the block has all its qubits in the block. -/
lemma Shows.qubits_of_active (hs : s.Sound) {q t : Nat} {g : Gate} (hq : q < s.rows.length)
    (hg : w.active t (d.qubits + q) = some g) :
    ∀ o ∈ g.qubits, d.qubits ≤ o ∧ o < d.qubits + s.rows.length := by
  rcases Nat.lt_or_ge t base with hlt | hge
  · rw [active_of_idle (h.idle q hq t hlt)] at hg
    simp at hg
  · obtain ⟨u, rfl⟩ := Nat.exists_eq_add_of_le hge
    rw [h.active hq] at hg
    obtain ⟨g₀, hg₀, rfl⟩ := Option.map_eq_some_iff.mp hg
    intro o ho
    obtain ⟨r, hr, rfl⟩ := List.mem_map.mp ho
    have := hs.lt_length hq (Cell.active_eq_some.mp hg₀).1 hr
    omega

/-- **The gates of a slot that lie in the block stand in its rows.** -/
theorem Shows.filter_workAt (hs : s.Sound) (hw : w.Sound) {P : Gate → Bool}
    (hP : ∀ g : Gate, P g = true ↔
      ∀ o ∈ g.qubits, d.qubits ≤ o ∧ o < d.qubits + s.rows.length) (t : Nat) :
    (w.workAt t).filter P =
      (List.range' d.qubits s.rows.length).filterMap (w.active t) := by
  obtain ⟨m, hm⟩ := Nat.exists_eq_add_of_le h.fits
  have hrange : List.range w.rows.length = List.range' 0 d.qubits ++
      (List.range' d.qubits s.rows.length ++ List.range' (d.qubits + s.rows.length) m) := by
    rw [hm, List.range_eq_range', List.range'_append_1]
    have := List.range'_append_1 (s := 0) (m := d.qubits) (n := s.rows.length + m)
    rw [Nat.zero_add, ← Nat.add_assoc] at this
    exact this.symm
  -- a gate in another row has a qubit outside of the block
  have hother : ∀ rows : List Nat,
      (∀ q ∈ rows, ¬(d.qubits ≤ q ∧ q < d.qubits + s.rows.length)) →
      (rows.filterMap (w.active t)).filter P = [] := by
    intro rows hrows
    refine List.filter_eq_nil_iff.mpr fun g hg hPg => ?_
    obtain ⟨q, hq, hact⟩ := List.mem_filterMap.mp hg
    exact hrows q hq ((hP g).mp hPg q (hw.owner (Cell.active_eq_some.mp hact).1))
  have hblock : ((List.range' d.qubits s.rows.length).filterMap (w.active t)).filter P =
      (List.range' d.qubits s.rows.length).filterMap (w.active t) := by
    refine List.filter_eq_self.mpr fun g hg => (hP g).mpr ?_
    obtain ⟨q, hq, hact⟩ := List.mem_filterMap.mp hg
    obtain ⟨i, hi, rfl⟩ := List.mem_range'.mp hq
    exact h.qubits_of_active hs hi (by simpa using hact)
  rw [workAt, hrange, List.filterMap_append, List.filterMap_append, List.filter_append,
    List.filter_append, hblock, hother _ fun q hq => ?_, hother _ fun q hq => ?_]
  · simp
  · have := List.mem_range'_1.mp hq
    omega
  · have := List.mem_range'_1.mp hq
    omega

/-- **The gates of a schedule that lie in the block are those that the block shows.** -/
theorem Shows.filter_work (hs : s.Sound) (hw : w.Sound) {P : Gate → Bool}
    (hP : ∀ g : Gate, P g = true ↔
      ∀ o ∈ g.qubits, d.qubits ≤ o ∧ o < d.qubits + s.rows.length) :
    (w.work w.height).filter P = (s.work s.height).map (Gate.raise d) := by
  have hslot := h.filter_workAt hs hw hP
  rw [← work_of_height_le (s := w) (n := base + (w.height + s.height)) (by omega),
    ← work_of_height_le (s := s) (n := w.height + s.height) (by omega)]
  rw [work, List.range_add, List.flatMap_append, List.filter_append, List.flatMap_map]
  have hbefore : ((List.range base).flatMap w.workAt).filter P = [] := by
    rw [List.filter_flatMap]
    refine List.flatMap_eq_nil_iff.mpr fun t ht => ?_
    rw [hslot, h.filterMap_active_of_lt (List.mem_range.mp ht)]
  rw [hbefore, List.nil_append, List.filter_flatMap, work, List.map_flatMap]
  refine List.flatMap_congr fun t _ => ?_
  rw [hslot, h.filterMap_active]

end Shows

/-! ### Joining -/

/-- Calls on bits of their own. -/
structure Block where
  size : Extent
  calls : List Call

namespace Block

/-- The calls of the blocks, each block behind those before it. -/
def joined (d : Extent) : List Block → List Call
  | [] => []
  | b :: bs => b.calls.map (Call.raise d) ++ joined (d + b.size) bs

/-- One block out of many. -/
def join (bs : List Block) : Block := ⟨.total (bs.map size), joined 0 bs⟩

/-- The circuit of a block. -/
def circuit (b : Block) : Except CompileError Circuit := do
  (← (empty b.size.qubits).performAll b.calls).flatten b.size.clbits

/-- The calls of a block keep to its rows. -/
def Keeps (b : Block) : Prop := ∀ c ∈ b.calls, c.Keeps b.size.qubits

lemma circuit_ok {b : Block} {c : Circuit} : b.circuit = .ok c ↔
    ∃ s, (empty b.size.qubits).performAll b.calls = .ok s ∧ s.flatten b.size.clbits = .ok c :=
  bind_eq_ok

lemma length_empty (n : Nat) : (empty n).rows.length = n := by simp [empty]

/-- The run of a block on its own. -/
lemma Keeps.run {b : Block} (hb : b.Keeps) {s : Schedule}
    (hs : (empty b.size.qubits).performAll b.calls = .ok s) :
    s.rows.length = b.size.qubits ∧ s.Sound := by
  have hnd : ∀ c ∈ b.calls, c.qubits.Nodup := fun c hc => (hb c hc).nodup
  exact ⟨(length_performAll hs).trans (length_empty _), (sound_empty _).performAll hs hnd⟩

lemma Keeps.size {b : Block} (hb : b.Keeps) {c : Circuit} (hc : b.circuit = .ok c) :
    c.size = b.size := by
  obtain ⟨s, hs, hflat⟩ := circuit_ok.mp hc
  obtain ⟨-, rfl⟩ := flatten_eq_ok_iff.mp hflat
  rw [Circuit.size, (hb.run hs).1]

/-- The calls of the blocks keep to the rows of all blocks. -/
lemma keeps_joined {bs : List Block} (hbs : ∀ b ∈ bs, b.Keeps) {d : Extent} {n : Nat}
    (hn : d.qubits + (Extent.total (bs.map Block.size)).qubits ≤ n) :
    ∀ c ∈ joined d bs, c.Keeps n := by
  induction bs generalizing d with
  | nil => simp [joined]
  | cons b bs ih =>
    rw [List.map_cons, Extent.total_cons, Extent.qubits_add] at hn
    intro c hc
    rcases List.mem_append.mp hc with hc | hc
    · obtain ⟨e, he, rfl⟩ := List.mem_map.mp hc
      have hk := hbs b List.mem_cons_self e he
      refine ⟨Call.nodup_raise hk.nodup, fun q hq => ?_, fun hm => ?_⟩
      · rw [Call.qubits_raise] at hq
        obtain ⟨r, hr, rfl⟩ := List.mem_map.mp hq
        have := hk.inRange r hr
        omega
      · rw [Call.isMeasurement_raise] at hm
        simpa using hk.some hm
    · refine ih (fun b' hb' => hbs b' (List.mem_cons_of_mem _ hb')) ?_ c hc
      rw [Extent.qubits_add]
      omega

lemma fits_joined {bs : List Block} {d : Extent} :
    (∀ c ∈ joined d bs, c.Fits) ↔ ∀ b ∈ bs, ∀ c ∈ b.calls, c.Fits := by
  induction bs generalizing d with
  | nil => simp [joined]
  | cons b bs ih =>
    simp only [joined, List.mem_append, or_imp, forall_and, List.mem_cons, forall_eq, ih,
      List.forall_mem_map, Call.fits_raise]

/-- The calls of all blocks succeed when those of each block do. -/
lemma performAll_joined_ok {bs : List Block} (hbs : ∀ b ∈ bs, b.Keeps) :
    (∃ w, (empty (join bs).size.qubits).performAll (join bs).calls = .ok w) ↔
      ∀ b ∈ bs, ∃ s, (empty b.size.qubits).performAll b.calls = .ok s := by
  rw [performAll_ok_iff, join, fits_joined]
  · refine forall₂_congr fun b hb => ?_
    rw [performAll_ok_iff]
    rw [length_empty]
    exact hbs b hb
  · rw [length_empty]
    exact keeps_joined hbs (by simp [join])

/-- **A run over blocks, one after the other, shows each of them.** -/
theorem shows_joined {bs : List Block} (hbs : ∀ b ∈ bs, b.Keeps) {ss : List Schedule}
    (hss : List.Forall₂ (fun b s => (empty b.size.qubits).performAll b.calls = .ok s) bs ss)
    {d : Extent} {base : Nat} {w w' : Schedule} (hlevel : Level w d.qubits base)
    (hlen : d.qubits + (Extent.total (bs.map Block.size)).qubits ≤ w.rows.length)
    (hw : w.performAll (joined d bs) = .ok w') :
    w'.rows.length = w.rows.length ∧ (∀ q < d.qubits, ∀ t, w'.cellAt q t = w.cellAt q t) ∧
      ∀ (k : Nat) (s : Schedule), ss[k]? = some s →
        ∃ base, Shows (d + Extent.before (bs.map Block.size) k) base s w' := by
  induction hss generalizing d base w with
  | nil =>
    obtain rfl := Except.ok.inj hw
    exact ⟨rfl, fun _ _ _ => rfl, by simp⟩
  | @cons b s bs ss hs _ ih =>
    obtain ⟨w₁, hw₁, hw⟩ := performAll_append_ok.mp hw
    have hb := hbs b List.mem_cons_self
    rw [List.map_cons, Extent.total_cons, Extent.qubits_add] at hlen
    have hwork := (hlevel.working (n := b.size.qubits) (by omega)).performAll hs hw₁
      (by rw [length_empty]; exact hb)
    have hslen := (hb.run hs).1
    obtain ⟨top, htop⟩ := hwork.after
    rw [hslen, ← Extent.qubits_add] at htop
    have hlen₁ : (d + b.size).qubits + (Extent.total (bs.map Block.size)).qubits ≤
        w₁.rows.length := by
      rw [hwork.length, Extent.qubits_add]
      omega
    obtain ⟨hrows, hsame, hrest⟩ :=
      ih (fun b' hb' => hbs b' (List.mem_cons_of_mem _ hb')) htop hlen₁ hw
    refine ⟨hrows.trans hwork.length, fun q hq t => ?_, fun k s' hk => ?_⟩
    · rw [hsame q (by rw [Extent.qubits_add]; omega), hwork.before q hq]
    · cases k with
      | succ k =>
        rw [List.map_cons, Extent.before_succ, ← Extent.add_assoc]
        exact hrest k s' hk
      | zero =>
        -- the blocks after this one leave its cells as they are
        obtain rfl : s = s' := Option.some.inj hk
        have hcell : ∀ q < s.rows.length, ∀ t,
            w'.cellAt (d.qubits + q) t = w₁.cellAt (d.qubits + q) t := fun q hq t =>
          hsame _ (by rw [Extent.qubits_add]; omega) t
        refine ⟨base, by rw [hrows]; exact hwork.mirrors.fits, fun q hq t => ?_,
          fun q hq t ht => ?_⟩
        · exact (hcell q hq _).trans (hwork.mirrors.cellAt q hq t)
        · exact (hcell q hq t).trans (hwork.mirrors.idle q hq t ht)

section Whole

variable {bs : List Block} (hbs : ∀ b ∈ bs, b.Keeps) {ss : List Schedule}
  (hss : List.Forall₂ (fun b s => (empty b.size.qubits).performAll b.calls = .ok s) bs ss)
  {w : Schedule} (hw : (empty (join bs).size.qubits).performAll (join bs).calls = .ok w)

include hbs hw in
lemma run_join : w.rows.length = (Extent.total (bs.map Block.size)).qubits ∧ w.Sound := by
  refine Keeps.run (b := join bs) (fun c hc => ?_) hw
  exact keeps_joined hbs (by simp [join]) c hc

include hbs hss hw

lemma shows_join {k : Nat} {s : Schedule} (hk : ss[k]? = some s) :
    s.Sound ∧ (Extent.before (bs.map Block.size) (k + 1)).qubits =
      (Extent.before (bs.map Block.size) k).qubits + s.rows.length ∧
        ∃ base, Shows (Extent.before (bs.map Block.size) k) base s w := by
  have hlevel : Level (empty (join bs).size.qubits) (0 : Extent).qubits 0 := by
    intro q _ _
    simp
  have hlen : (0 : Extent).qubits + (Extent.total (bs.map Block.size)).qubits ≤
      (empty (join bs).size.qubits).rows.length := by
    rw [length_empty]
    simp [join]
  obtain ⟨base, hshows⟩ := (shows_joined hbs hss hlevel hlen hw).2.2 k s hk
  rw [Extent.zero_add] at hshows
  obtain ⟨b, hb, hrun⟩ := getElem?_of_forall₂ hss.flip hk
  obtain ⟨hrows, hsound⟩ := (hbs b (List.mem_of_getElem? hb)).run hrun
  have hsize : (bs.map Block.size)[k]? = some b.size := by simp [hb]
  exact ⟨hsound, by rw [Extent.qubits_before_succ hsize, hrows], base, hshows⟩

/-- Every row is a row of a block. -/
lemma exists_row {q : Nat} (hq : q < w.rows.length) : ∃ (k : Nat) (s : Schedule) (r : Nat),
    ss[k]? = some s ∧ r < s.rows.length ∧
      q = (Extent.before (bs.map Block.size) k).qubits + r := by
  rw [(run_join hbs hw).1] at hq
  obtain ⟨k, e, r, hk, hr, rfl⟩ := Extent.exists_block hq
  obtain ⟨b, hb, rfl⟩ : ∃ b, bs[k]? = some b ∧ b.size = e := by simpa using hk
  obtain ⟨s, hs, hrun⟩ := getElem?_of_forall₂ hss hb
  exact ⟨k, s, r, hs, by rwa [((hbs b (List.mem_of_getElem? hb)).run hrun).1], rfl⟩

/-- Qubits are used after their measurement when they are in one of the blocks. -/
lemma legal_join : w.Legal ↔ ∀ s ∈ ss, s.Legal := by
  constructor
  · intro hl s hs t q
    obtain ⟨k, hk⟩ := List.mem_iff_getElem?.mp hs
    obtain ⟨hsound, -, base, hshows⟩ := shows_join hbs hss hw hk
    by_cases hq : q < s.rows.length
    · exact (hshows.legalAt hsound hq t).mp (hl _ _)
    · exact legalAt_of_idle (cellAt_outside (Nat.le_of_not_lt hq) t)
  · intro hall t q
    by_cases hq : q < w.rows.length
    · obtain ⟨k, s, r, hk, hr, rfl⟩ := exists_row hbs hss hw hq
      obtain ⟨hsound, -, base, hshows⟩ := shows_join hbs hss hw hk
      rcases Nat.lt_or_ge t base with hlt | hge
      · exact legalAt_of_idle (hshows.idle r hr t hlt)
      · obtain ⟨u, rfl⟩ := Nat.exists_eq_add_of_le hge
        exact (hshows.legalAt hsound hr u).mpr (hall s (List.mem_of_getElem? hk) u r)
    · exact legalAt_of_idle (cellAt_outside (Nat.le_of_not_lt hq) t)

/-- Every gate lies in the block of its row. -/
lemma liesIn_of_mem_work {g : Gate} {n : Nat} (hg : g ∈ w.work n) :
    ∃! k, k < ss.length ∧ g.liesIn (bs.map Block.size) k := by
  obtain ⟨t, -, hg⟩ := List.mem_flatMap.mp hg
  obtain ⟨q, hq, hact⟩ := List.mem_filterMap.mp hg
  obtain ⟨k, s, r, hk, hr, rfl⟩ := exists_row hbs hss hw (List.mem_range.mp hq)
  obtain ⟨hsound, hnext, base, hshows⟩ := shows_join hbs hss hw hk
  have hlies : g.liesIn (bs.map Block.size) k := by
    rw [Gate.liesIn_iff, hnext]
    exact hshows.qubits_of_active hsound hr hact
  have hown := (run_join hbs hw).2.owner (Cell.active_eq_some.mp hact).1
  refine ⟨k, ⟨(List.getElem?_eq_some_iff.mp hk).1, hlies⟩, ?_⟩
  rintro l ⟨-, hl⟩
  exact Gate.eq_of_liesIn hown hl hlies

end Whole

lemma circuit_ok_iff {b : Block} : (∃ c, b.circuit = .ok c) ↔
    ∃ s, (empty b.size.qubits).performAll b.calls = .ok s ∧ s.Legal := by
  simp only [circuit_ok, flatten_eq_ok_iff]
  constructor
  · rintro ⟨c, s, hs, hl, -⟩
    exact ⟨s, hs, hl⟩
  · rintro ⟨s, hs, hl⟩
    exact ⟨_, s, hs, hl, rfl⟩

lemma exists_runs {bs : List Block}
    (h : ∀ b ∈ bs, ∃ s, (empty b.size.qubits).performAll b.calls = .ok s) :
    ∃ ss, List.Forall₂ (fun b s => (empty b.size.qubits).performAll b.calls = .ok s) bs ss := by
  obtain ⟨ss, hss⟩ := exists_mapM_ok.mpr h
  exact ⟨ss, mapM_eq_ok_iff.mp hss⟩

/-- **Joined blocks have a circuit exactly when each of them has one.** -/
theorem join_ok {bs : List Block} (hbs : ∀ b ∈ bs, b.Keeps) :
    (∃ c, (join bs).circuit = .ok c) ↔ ∀ b ∈ bs, ∃ c, b.circuit = .ok c := by
  simp only [circuit_ok_iff]
  constructor
  · rintro ⟨w, hw, hl⟩ b hb
    obtain ⟨ss, hss⟩ := exists_runs ((performAll_joined_ok hbs).mp ⟨w, hw⟩)
    obtain ⟨s, hs, hrun⟩ := exists_of_forall₂ hss hb
    exact ⟨s, hrun, (legal_join hbs hss hw).mp hl s hs⟩
  · intro h
    have hruns : ∀ b ∈ bs, ∃ s, (empty b.size.qubits).performAll b.calls = .ok s := by
      intro b hb
      obtain ⟨s, hs, -⟩ := h b hb
      exact ⟨s, hs⟩
    obtain ⟨ss, hss⟩ := exists_runs hruns
    obtain ⟨w, hw⟩ := (performAll_joined_ok hbs).mpr hruns
    refine ⟨w, hw, (legal_join hbs hss hw).mpr fun s hs => ?_⟩
    obtain ⟨b, hb, hrun⟩ := exists_of_forall₂ hss.flip hs
    obtain ⟨s', hrun', hl⟩ := h b hb
    obtain rfl := Except.ok.inj (hrun.symm.trans hrun')
    exact hl

lemma map_size {bs : List Block} (hbs : ∀ b ∈ bs, b.Keeps) {cs : List Circuit}
    (hcs : List.Forall₂ (fun b c => b.circuit = .ok c) bs cs) :
    cs.map Circuit.size = bs.map Block.size := by
  induction hcs with
  | nil => rfl
  | cons hc _ ih =>
    rw [List.map_cons, List.map_cons, (hbs _ List.mem_cons_self).size hc,
      ih fun b hb => hbs b (List.mem_cons_of_mem _ hb)]

/-- **The circuit of joined blocks is their circuits side by side.** -/
theorem join_sideBySide {bs : List Block} (hbs : ∀ b ∈ bs, b.Keeps) {c : Circuit}
    {cs : List Circuit} (hc : (join bs).circuit = .ok c)
    (hcs : List.Forall₂ (fun b c => b.circuit = .ok c) bs cs) : SideBySide c cs := by
  obtain ⟨w, hw, hflat⟩ := circuit_ok.mp hc
  obtain ⟨ss, hss⟩ := exists_runs ((performAll_joined_ok hbs).mp ⟨w, hw⟩)
  have hlen : ss.length = cs.length := hss.length_eq.symm.trans hcs.length_eq
  refine ⟨fun g hg => ?_, fun k part hk => ?_⟩ <;> rw [map_size hbs hcs]
  · rw [nonIdentity_gates hflat] at hg
    rw [← hlen]
    exact liesIn_of_mem_work hbs hss hw hg
  · obtain ⟨b, hb, hcirc⟩ := getElem?_of_forall₂ hcs.flip hk
    obtain ⟨s, hs, hrun⟩ := getElem?_of_forall₂ hss hb
    obtain ⟨s', hrun', hpart⟩ := circuit_ok.mp hcirc
    obtain rfl := Except.ok.inj (hrun.symm.trans hrun')
    obtain ⟨hsound, hnext, base, hshows⟩ := shows_join hbs hss hw hs
    rw [nonIdentity_gates hflat, nonIdentity_gates hpart]
    refine hshows.filter_work hsound (run_join hbs hw).2 fun g => ?_
    rw [Gate.liesIn_iff, hnext]

end Block

end Schedule
end QCircuit
