import Mathlib.Data.List.Nodup
import Mathlib.Data.List.Perm.Basic
import Mathlib.Logic.Relation
import Mathlib.Order.Nat
import Mathlib.Order.RelClasses
import Mathlib.Tactic.Common
import QCircuit.Component

/-!
Walks and parts, for any successor function.

A depth-first walk lists each vertex before its successors. The sets reached from seeds along a
symmetric relation are disjoint, and each is closed.
-/

namespace QCircuit

/-- Ascending lists with the same members are equal. -/
lemma eq_of_ascending {xs ys : List Nat} (hx : xs.Pairwise (· < ·)) (hy : ys.Pairwise (· < ·))
    (hmem : ∀ v, v ∈ xs ↔ v ∈ ys) : xs = ys := by
  have hperm : xs.Perm ys := (List.perm_ext_iff_of_nodup hx.nodup hy.nodup).mpr hmem
  exact hperm.eq_of_pairwise (fun a b _ _ hab hba => absurd hba (Nat.lt_asymm hab)) hx hy

/-! ### Depth-first walks -/

namespace Graph

/-- The vertex of a visit. -/
def Visit.vertex : Visit → Nat
  | .enter v | .leave v => v

/-- The vertex that a visit will leave. -/
def Visit.open? : Visit → Option Nat
  | .enter _ => none
  | .leave v => some v

/-- The vertices entered and not left yet. -/
def opened (agenda : List Visit) : List Nat := agenda.filterMap Visit.open?

@[simp] lemma opened_append (xs ys : List Visit) : opened (xs ++ ys) = opened xs ++ opened ys :=
  List.filterMap_append

@[simp] lemma opened_enter (vs : List Nat) : opened (vs.map .enter) = [] := by
  simp [opened, List.filterMap_map, Function.comp_def, Visit.open?]

@[simp] lemma opened_cons_leave (v : Nat) (agenda : List Visit) :
    opened (.leave v :: agenda) = v :: opened agenda := rfl

@[simp] lemma opened_cons_enter (v : Nat) (agenda : List Visit) :
    opened (.enter v :: agenda) = opened agenda := rfl

lemma mem_opened {agenda : List Visit} {v : Nat} : v ∈ opened agenda ↔ .leave v ∈ agenda := by
  simp only [opened, List.mem_filterMap]
  constructor
  · rintro ⟨x, hx, hv⟩
    cases x with
    | enter u => simp [Visit.open?] at hv
    | leave u =>
      obtain rfl : u = v := by simpa [Visit.open?] using hv
      exact hx
  · exact fun h => ⟨_, h, rfl⟩

/-- Every vertex stands before its successors among `all`, which are all there. -/
def Settled (next : Nat → List Nat) (all : List Nat) : List Nat → Prop
  | [] => True
  | v :: done => (∀ w ∈ next v, w ∈ all → w ∈ done) ∧ Settled next all done

lemma Settled.mem_of_next {next : Nat → List Nat} {all xs ys : List Nat} {v w : Nat}
    (h : Settled next all (xs ++ v :: ys)) (hw : w ∈ next v) (hall : w ∈ all) : w ∈ ys := by
  induction xs with
  | nil => exact h.1 w hw hall
  | cons x xs ih => exact ih h.2

/-- What a path leads to stands behind its start. -/
lemma Settled.mem_of_path {next : Nat → List Nat} {all xs ys : List Nat} {v w : Nat}
    (h : Settled next all (xs ++ v :: ys))
    (hpath : Relation.TransGen (fun a b => b ∈ next a ∧ b ∈ all) v w) : w ∈ ys := by
  induction hpath with
  | single hstep => exact h.mem_of_next hstep.1 hstep.2
  | tail _ hstep ih =>
    obtain ⟨as, bs, rfl⟩ := List.append_of_mem ih
    rw [← List.cons_append, ← List.append_assoc] at h
    have := h.mem_of_next hstep.1 hstep.2
    simp [this]

lemma Settled.sublist {next : Nat → List Nat} {all order : List Nat} {u v : Nat}
    (h : Settled next all order) (hu : u ∈ order) (hv : v ∈ next u) (hall : v ∈ all) :
    [u, v].Sublist order := by
  obtain ⟨xs, ys, rfl⟩ := List.append_of_mem hu
  have hmem := List.singleton_sublist.mpr (h.mem_of_next hv hall)
  exact (hmem.cons_cons u).trans (List.sublist_append_right xs _)

/-- Vertices joined by paths in ascending order stand in ascending order. -/
lemma Settled.pairwise_filter {next : Nat → List Nat} {all order : List Nat} {uses : Nat → Bool}
    (h : Settled next all order) (hnd : order.Nodup)
    (hpath : ∀ u w, u ∈ order → w ∈ order → uses u → uses w → u < w →
      Relation.TransGen (fun a b => b ∈ next a ∧ b ∈ all) u w) :
    (order.filter uses).Pairwise (· < ·) := by
  rw [List.pairwise_filter, List.pairwise_iff_forall_sublist]
  intro a b hsub ha hb
  obtain ⟨xs, ys, rfl, hax, hbs⟩ := List.cons_sublist_iff.mp hsub
  have hby : b ∈ ys := List.singleton_sublist.mp hbs
  have hapart : ∀ x ∈ xs, x ∉ ys := fun x hx hy => (List.nodup_append.mp hnd).2.2 x hx x hy rfl
  by_contra hlt
  have hba : b < a := by
    have : a ≠ b := fun h => hapart a hax (h ▸ hby)
    omega
  -- a path leads from `b` to `a`, so `a` would stand behind `b` too
  have hp := hpath b a (by simp [hby]) (by simp [hax]) hb ha hba
  obtain ⟨zs, as, rfl⟩ := List.append_of_mem hby
  rw [← List.append_assoc] at h
  exact hapart a hax (by simp [h.mem_of_path hp])

/-- The successors among `all` of a vertex are dealt with before it is left. -/
def Pending (next : Nat → List Nat) (all : List Nat) : (before : List Nat) → List Visit → Prop
  | _, [] => True
  | before, .enter v :: agenda => Pending next all (v :: before) agenda
  | before, .leave v :: agenda =>
    (∀ w ∈ next v, w ∈ all → w ∈ before) ∧ Pending next all (v :: before) agenda

/-- What holds during a walk through `all`, where successors come later in the order `lt`. -/
structure Walking (lt : Nat → Nat → Prop) (next : Nat → List Nat) (all unvisited : List Nat)
    (agenda : List Visit) (done : List Nat) : Prop where
  perm : (unvisited ++ opened agenda ++ done).Perm all
  /-- What is above the end of a vertex comes later than it. -/
  above : agenda.Pairwise fun a b => ∀ v, b = .leave v → lt v a.vertex
  pending : Pending next all done agenda
  settled : Settled next all done

section Walk

variable {lt : Nat → Nat → Prop} {next : Nat → List Nat} {all unvisited done : List Nat}
  {agenda : List Visit} {v : Nat}

lemma Pending.mono {before before' : List Nat} (h : Pending next all before agenda)
    (hsub : ∀ w ∈ before, w ∈ all → w ∈ before') : Pending next all before' agenda := by
  have hcons : ∀ {ds ds' : List Nat} {v : Nat}, (∀ w ∈ ds, w ∈ all → w ∈ ds') →
      ∀ w ∈ v :: ds, w ∈ all → w ∈ v :: ds' := by
    intro ds ds' v hds w hw hall
    rcases List.mem_cons.mp hw with rfl | hw
    · exact List.mem_cons_self
    · exact List.mem_cons_of_mem _ (hds w hw hall)
  induction agenda generalizing before before' with
  | nil => trivial
  | cons a agenda ih =>
    cases a with
    | enter v => exact ih h (hcons hsub)
    | leave v =>
      exact ⟨fun w hw hall => hsub w (h.1 w hw hall) hall, ih h.2 (hcons hsub)⟩

lemma pending_enter_append {vs before : List Nat} :
    Pending next all before (vs.map .enter ++ agenda) ↔
      Pending next all (vs.reverse ++ before) agenda := by
  induction vs generalizing before with
  | nil => rfl
  | cons v vs ih => simp [Pending, ih]

lemma Walking.leave (h : Walking lt next all unvisited (.leave v :: agenda) done) :
    Walking lt next all unvisited agenda (v :: done) := by
  obtain ⟨hperm, habove, ⟨hnext, hpending⟩, hsettled⟩ := h
  refine ⟨?_, (List.pairwise_cons.mp habove).2, hpending, hnext, hsettled⟩
  refine List.Perm.trans ?_ hperm
  simp only [opened_cons_leave, List.append_assoc, List.cons_append]
  exact .append_left _ List.perm_middle

lemma Walking.enter [IsTrans Nat lt] (h : Walking lt next all unvisited (.enter v :: agenda) done)
    (hup : ∀ w ∈ next v, lt v w) (hv : v ∈ unvisited) :
    Walking lt next all (unvisited.erase v) ((next v).map .enter ++ .leave v :: agenda) done := by
  obtain ⟨hperm, habove, hpending, hsettled⟩ := h
  obtain ⟨hhead, htail⟩ := List.pairwise_cons.mp habove
  refine ⟨?_, ?_, ?_, hsettled⟩
  · refine List.Perm.trans ?_ hperm
    simp only [opened_append, opened_enter, opened_cons_leave, opened_cons_enter, List.nil_append]
    rw [List.append_assoc, List.append_assoc]
    refine List.Perm.trans List.perm_middle ?_
    rw [← List.cons_append]
    exact (List.perm_cons_erase hv).symm.append_right _
  · rw [List.pairwise_append, List.pairwise_cons]
    refine ⟨?_, ⟨fun b hb u hu => hhead b hb u hu, htail⟩, ?_⟩
    · exact List.pairwise_map.mpr (List.pairwise_of_forall fun _ _ u hu => by simp at hu)
    · intro a ha b hb u hu
      obtain ⟨w, hw, rfl⟩ := List.mem_map.mp ha
      have hvw := hup w hw
      rcases List.mem_cons.mp hb with rfl | hb
      · obtain rfl := Visit.leave.inj hu
        exact hvw
      · exact trans_of lt (hhead b hb u hu) hvw
  · rw [pending_enter_append]
    have hrest : Pending next all (v :: done) agenda := hpending
    refine ⟨fun w hw _ => by simp [hw], hrest.mono fun w hw _ => ?_⟩
    rcases List.mem_cons.mp hw with rfl | hw <;> simp_all

/-- Nothing happens at a vertex that has been left, or that is not to be visited. -/
lemma Walking.skip [Std.Irrefl lt] (h : Walking lt next all unvisited (.enter v :: agenda) done)
    (hv : v ∉ unvisited) : Walking lt next all unvisited agenda done := by
  obtain ⟨hperm, habove, hpending, hsettled⟩ := h
  obtain ⟨hhead, htail⟩ := List.pairwise_cons.mp habove
  have hrest : Pending next all (v :: done) agenda := hpending
  refine ⟨hperm, htail, hrest.mono fun w hw hall => ?_, hsettled⟩
  rcases List.mem_cons.mp hw with rfl | hw
  · -- an open vertex is not entered from above its end
    have hclosed : w ∉ opened agenda := fun ho =>
      irrefl_of lt w (hhead _ (mem_opened.mp ho) w rfl)
    have hmem := hperm.mem_iff.mpr hall
    simp only [opened_cons_enter, List.mem_append] at hmem
    tauto
  · exact hw

/-- **A walk along an increasing relation puts every vertex before its successors.** -/
theorem Walking.walk_settled [IsStrictOrder Nat lt]
    (h : Walking lt next all unvisited agenda done) (hup : ∀ v, ∀ w ∈ next v, lt v w) :
    Settled next all (walk next unvisited agenda done) := by
  fun_induction walk next unvisited agenda done with
  | case1 unvisited done => exact h.settled
  | case2 unvisited done v agenda ih => exact ih h.leave
  | case3 unvisited done v agenda hv _ ih => exact ih (h.enter (hup v) hv)
  | case4 unvisited done v agenda hv ih => exact ih (h.skip hv)

lemma Walking.walk_nodup [IsStrictOrder Nat lt] (hall : all.Nodup)
    (h : Walking lt next all unvisited agenda done) (hup : ∀ v, ∀ w ∈ next v, lt v w) :
    (walk next unvisited agenda done).Nodup := by
  fun_induction walk next unvisited agenda done with
  | case1 unvisited done => exact (List.nodup_append.mp (h.perm.nodup_iff.mpr hall)).2.1
  | case2 unvisited done v agenda ih => exact ih h.leave
  | case3 unvisited done v agenda hv _ ih => exact ih (h.enter (hup v) hv)
  | case4 unvisited done v agenda hv ih => exact ih (h.skip hv)

end Walk

/-- What was left before stays. -/
lemma mem_walk_of_mem {next : Nat → List Nat} {unvisited done : List Nat} {agenda : List Visit}
    {u : Nat} (hu : u ∈ done ∨ u ∈ opened agenda) : u ∈ walk next unvisited agenda done := by
  fun_induction walk next unvisited agenda done with
  | case1 unvisited done => simpa [opened] using hu
  | case2 unvisited done v agenda ih =>
    refine ih ?_
    simp only [opened_cons_leave, List.mem_cons] at hu ⊢
    tauto
  | case3 unvisited done v agenda hv _ ih =>
    refine ih ?_
    simp only [opened_cons_enter, opened_append, opened_enter, opened_cons_leave,
      List.nil_append, List.mem_cons] at hu ⊢
    tauto
  | case4 unvisited done v agenda hv ih => exact ih hu

/-- What is to be entered is visited. -/
lemma mem_walk_of_enter {next : Nat → List Nat} {unvisited done : List Nat} {agenda : List Visit}
    {u : Nat} (hu : .enter u ∈ agenda) (hun : u ∈ unvisited) :
    u ∈ walk next unvisited agenda done := by
  fun_induction walk next unvisited agenda done with
  | case1 unvisited done => simp at hu
  | case2 unvisited done v agenda ih =>
    exact ih (by simpa using hu) hun
  | case3 unvisited done v agenda hv _ ih =>
    by_cases huv : u = v
    · subst huv
      exact mem_walk_of_mem (Or.inr (by simp))
    · refine ih ?_ ((List.mem_erase_of_ne huv).mpr hun)
      simp only [List.mem_cons, Visit.enter.injEq] at hu
      simp only [List.mem_append, List.mem_cons]
      tauto
  | case4 unvisited done v agenda hv ih =>
    refine ih ?_ hun
    rcases List.mem_cons.mp hu with he | hu
    · obtain rfl := Visit.enter.inj he
      exact absurd hun hv
    · exact hu

/-- A property of what is to be entered that successors inherit holds of all that is visited. -/
lemma walk_induct {next : Nat → List Nat} {unvisited done : List Nat} {agenda : List Visit}
    {P : Nat → Prop} (hnext : ∀ v ∈ unvisited, P v → ∀ w ∈ next v, w ∈ unvisited → P w)
    (hagenda : ∀ v, .enter v ∈ agenda → v ∈ unvisited → P v) {u : Nat}
    (hu : u ∈ walk next unvisited agenda done) :
    u ∈ done ∨ u ∈ opened agenda ∨ (u ∈ unvisited ∧ P u) := by
  fun_induction walk next unvisited agenda done with
  | case1 unvisited done => exact Or.inl hu
  | case2 unvisited done v agenda ih =>
    have := ih hnext (fun w hw => hagenda w (List.mem_cons_of_mem _ hw)) hu
    simp only [opened_cons_leave, List.mem_cons] at this ⊢
    tauto
  | case3 unvisited done v agenda hv _ ih =>
    have hPv := hagenda v List.mem_cons_self hv
    have := ih (fun x hx hPx w hw hwu =>
        hnext x (List.mem_of_mem_erase hx) hPx w hw (List.mem_of_mem_erase hwu)) ?_ hu
    · simp only [opened_append, opened_enter, opened_cons_leave, opened_cons_enter,
        List.nil_append, List.mem_cons] at this ⊢
      rcases this with hd | (rfl | ho) | ⟨hun, hP⟩
      · exact Or.inl hd
      · exact Or.inr (Or.inr ⟨hv, hPv⟩)
      · exact Or.inr (Or.inl ho)
      · exact Or.inr (Or.inr ⟨List.mem_of_mem_erase hun, hP⟩)
    · intro w hw hwu
      have hwun := List.mem_of_mem_erase hwu
      simp only [List.mem_append, List.mem_map, Visit.enter.injEq, exists_eq_right, List.mem_cons,
        reduceCtorEq, false_or] at hw
      rcases hw with hw | hw
      · exact hnext v hv hPv w hw hwun
      · exact hagenda w (List.mem_cons_of_mem _ hw) hwun
  | case4 unvisited done v agenda hv ih =>
    exact ih hnext (fun w hw => hagenda w (List.mem_cons_of_mem _ hw)) hu

/-- What is visited leads to what is visited. -/
lemma walk_closed {next : Nat → List Nat} {unvisited done : List Nat} {agenda : List Visit}
    {u w : Nat} (hu : u ∈ walk next unvisited agenda done) (hdone : u ∉ done)
    (hopen : u ∉ opened agenda) (hw : w ∈ next u) (hwun : w ∈ unvisited) :
    w ∈ walk next unvisited agenda done := by
  fun_induction walk next unvisited agenda done with
  | case1 unvisited done => exact absurd hu hdone
  | case2 unvisited done v agenda ih =>
    rw [opened_cons_leave, List.mem_cons, not_or] at hopen
    exact ih hu (by simp [hopen.1, hdone]) hopen.2 hwun
  | case3 unvisited done v agenda hv _ ih =>
    by_cases hwv : w = v
    · exact mem_walk_of_mem (Or.inr (by simp [hwv]))
    · have hwe := (List.mem_erase_of_ne hwv).mpr hwun
      by_cases huv : u = v
      · subst huv
        exact mem_walk_of_enter (List.mem_append_left _ (List.mem_map_of_mem hw)) hwe
      · exact ih hu hdone (by simpa [huv] using hopen) hwe
  | case4 unvisited done v agenda hv ih => exact ih hu hdone hopen hwun

end Graph

/-! ### Parts -/

section Reach

variable {next : Nat → List Nat} {unvisited agenda reached : List Nat} {u : Nat}

lemma mem_reach_of_mem (hu : u ∈ reached) : u ∈ reach next unvisited agenda reached := by
  fun_induction reach next unvisited agenda reached with
  | case1 unvisited reached => exact hu
  | case2 unvisited reached v agenda hv _ ih => exact ih (List.mem_cons_of_mem _ hu)
  | case3 unvisited reached v agenda hv ih => exact ih hu

lemma mem_reach_of_agenda (hu : u ∈ agenda) (hun : u ∈ unvisited) :
    u ∈ reach next unvisited agenda reached := by
  fun_induction reach next unvisited agenda reached with
  | case1 unvisited reached => simp at hu
  | case2 unvisited reached v agenda hv _ ih =>
    by_cases huv : u = v
    · exact mem_reach_of_mem (by simp [huv])
    · refine ih ?_ ((List.mem_erase_of_ne huv).mpr hun)
      exact List.mem_append_right _ (List.mem_of_ne_of_mem huv hu)
  | case3 unvisited reached v agenda hv ih =>
    refine ih ?_ hun
    rcases List.mem_cons.mp hu with rfl | hu
    · exact absurd hun hv
    · exact hu

lemma mem_of_mem_reach (hu : u ∈ reach next unvisited agenda reached) :
    u ∈ reached ∨ u ∈ unvisited := by
  fun_induction reach next unvisited agenda reached with
  | case1 unvisited reached => exact Or.inl hu
  | case2 unvisited reached v agenda hv _ ih =>
    rcases ih hu with hr | hun
    · rcases List.mem_cons.mp hr with rfl | hr
      · exact Or.inr hv
      · exact Or.inl hr
    · exact Or.inr (List.mem_of_mem_erase hun)
  | case3 unvisited reached v agenda hv ih => exact ih hu

/-- What is reached leads to what is reached. -/
lemma reach_closed (hu : u ∈ reach next unvisited agenda reached) (hnot : u ∉ reached) {w : Nat}
    (hw : w ∈ next u) (hwun : w ∈ unvisited) : w ∈ reach next unvisited agenda reached := by
  fun_induction reach next unvisited agenda reached with
  | case1 unvisited reached => exact absurd hu hnot
  | case2 unvisited reached v agenda hv _ ih =>
    by_cases hwv : w = v
    · exact mem_reach_of_mem (by simp [hwv])
    · have hwe := (List.mem_erase_of_ne hwv).mpr hwun
      by_cases huv : u = v
      · subst huv
        exact mem_reach_of_agenda (List.mem_append_left _ hw) hwe
      · exact ih hu (by simp [huv, hnot]) hwe
  | case3 unvisited reached v agenda hv ih => exact ih hu hnot hwun

/-- A property of the agenda that successors inherit holds of all that is reached. -/
lemma reach_induct {P : Nat → Prop} (hnext : ∀ v ∈ unvisited, P v → ∀ w ∈ next v, P w)
    (hagenda : ∀ v ∈ agenda, P v) (hu : u ∈ reach next unvisited agenda reached) :
    u ∈ reached ∨ P u := by
  fun_induction reach next unvisited agenda reached with
  | case1 unvisited reached => exact Or.inl hu
  | case2 unvisited reached v agenda hv _ ih =>
    have hPv := hagenda v List.mem_cons_self
    have hrest : ∀ w ∈ next v ++ agenda, P w := by
      intro w hw
      rcases List.mem_append.mp hw with hw | hw
      · exact hnext v hv hPv w hw
      · exact hagenda w (List.mem_cons_of_mem _ hw)
    rcases ih (fun w hw => hnext w (List.mem_of_mem_erase hw)) hrest hu with hr | hP
    · rcases List.mem_cons.mp hr with rfl | hr
      · exact Or.inr hPv
      · exact Or.inl hr
    · exact Or.inr hP
  | case3 unvisited reached v agenda hv ih =>
    exact ih hnext (fun w hw => hagenda w (List.mem_cons_of_mem _ hw)) hu

end Reach

/-- A step between two of the positions in `all`. -/
def Steps (next : Nat → List Nat) (all : List Nat) (v w : Nat) : Prop :=
  (v ∈ all ∧ w ∈ all) ∧ w ∈ next v

/-- **What is reached is what a chain of steps leads to**, if no step leaves the unvisited
positions. -/
lemma mem_reach_iff {next : Nat → List Nat} {all unvisited : List Nat} {seed u : Nat}
    (hsub : ∀ v ∈ unvisited, v ∈ all)
    (hclosed : ∀ v ∈ unvisited, ∀ w, Steps next all v w → w ∈ unvisited)
    (hseed : seed ∈ unvisited) :
    u ∈ reach next unvisited [seed] [] ↔ Relation.ReflTransGen (Steps next all) seed u := by
  have hun : ∀ {v}, v ∈ reach next unvisited [seed] [] → v ∈ unvisited := fun hv => by
    simpa using mem_of_mem_reach hv
  constructor
  · intro hu
    have hpath := reach_induct
      (P := fun v => v ∈ all → Relation.ReflTransGen (Steps next all) seed v)
      (fun v hv hP w hw hall => (hP (hsub v hv)).tail ⟨⟨hsub v hv, hall⟩, hw⟩)
      (by simpa using fun _ => Relation.ReflTransGen.refl) hu
    exact (by simpa using hpath : u ∈ all → _) (hsub u (hun hu))
  · intro hpath
    induction hpath with
    | refl => exact mem_reach_of_agenda List.mem_cons_self hseed
    | tail _ hstep ih => exact reach_closed ih (by simp) hstep.2 (hclosed _ (hun ih) _ hstep)

/-- Disjoint sets of positions, closed under a relation. -/
structure Parted (next : Nat → List Nat) (all : List Nat) (parts : List (List Nat)) : Prop where
  within : ∀ part ∈ parts, ∀ v ∈ part, v ∈ all
  apart : parts.Pairwise List.Disjoint
  closed : ∀ part ∈ parts, ∀ v ∈ part, ∀ w ∈ next v, w ∈ part

section Partition

variable {next : Nat → List Nat} {seeds unvisited : List Nat}

lemma mem_unvisited_of_part {part : List Nat} (hpart : part ∈ partitionFrom next seeds unvisited)
    {v : Nat} (hv : v ∈ part) : v ∈ unvisited := by
  induction seeds generalizing unvisited with
  | nil => simp [partitionFrom] at hpart
  | cons seed seeds ih =>
    rw [partitionFrom] at hpart
    split at hpart
    · rcases List.mem_cons.mp hpart with rfl | hpart
      · simpa using mem_of_mem_reach hv
      · exact List.mem_of_mem_filter (ih hpart)
    · exact ih hpart

/-- A set takes nothing that an earlier one has. -/
lemma partitionFrom_apart : (partitionFrom next seeds unvisited).Pairwise List.Disjoint := by
  induction seeds generalizing unvisited with
  | nil => simp [partitionFrom]
  | cons seed seeds ih =>
    rw [partitionFrom]
    split
    · refine List.pairwise_cons.mpr ⟨fun q hq v hv hvq => ?_, ih⟩
      have := (List.mem_filter.mp (mem_unvisited_of_part hq hvq)).2
      simp [hv] at this
    · exact ih

/-- A set is what a chain of steps leads to from its seed, if steps lead back and none leaves the
unvisited positions. -/
lemma exists_seed_of_part {all part : List Nat}
    (hsymm : ∀ v w, Steps next all v w → Steps next all w v)
    (hsub : ∀ v ∈ unvisited, v ∈ all)
    (hclosed : ∀ v ∈ unvisited, ∀ w, Steps next all v w → w ∈ unvisited)
    (hpart : part ∈ partitionFrom next seeds unvisited) :
    ∃ seed ∈ seeds, seed ∈ unvisited ∧
      ∀ u, u ∈ part ↔ Relation.ReflTransGen (Steps next all) seed u := by
  induction seeds generalizing unvisited with
  | nil => simp [partitionFrom] at hpart
  | cons seed seeds ih =>
    have hrest : (∃ s ∈ seeds, s ∈ unvisited ∧
        ∀ u, u ∈ part ↔ Relation.ReflTransGen (Steps next all) s u) →
        ∃ s ∈ seed :: seeds, s ∈ unvisited ∧
          ∀ u, u ∈ part ↔ Relation.ReflTransGen (Steps next all) s u :=
      fun ⟨s, hs, h⟩ => ⟨s, List.mem_cons_of_mem _ hs, h⟩
    rw [partitionFrom] at hpart
    split at hpart
    · next hseed =>
      have hreach := fun u => mem_reach_iff (u := u) hsub hclosed hseed
      rcases List.mem_cons.mp hpart with rfl | hpart
      · exact ⟨seed, List.mem_cons_self, hseed, hreach⟩
      · -- no step leaves what is left over, as one would lead back to it
        have hleft : ∀ v ∈ unvisited.filter (· ∉ reach next unvisited [seed] []), ∀ w,
            Steps next all v w → w ∈ unvisited.filter (· ∉ reach next unvisited [seed] []) := by
          intro v hv w hstep
          obtain ⟨hvu, hvp⟩ := List.mem_filter.mp hv
          refine List.mem_filter.mpr ⟨hclosed v hvu w hstep, decide_eq_true fun hwp => ?_⟩
          have hback := ((hreach w).mp hwp).tail (hsymm v w hstep)
          exact of_decide_eq_true hvp ((hreach v).mpr hback)
        obtain ⟨s, hs, hsleft, hclass⟩ :=
          ih (fun v hv => hsub v (List.mem_of_mem_filter hv)) hleft hpart
        exact hrest ⟨s, hs, List.mem_of_mem_filter hsleft, hclass⟩
    · exact hrest (ih hsub hclosed hpart)

/-- **Two positions are in one set when a chain of steps joins them.** -/
theorem mem_part_iff {all part : List Nat} (hsymm : ∀ v w, Steps next all v w → Steps next all w v)
    (hpart : part ∈ partitionFrom next seeds all) {v w : Nat} (hv : v ∈ part) :
    w ∈ part ↔ Relation.ReflTransGen (Steps next all) v w := by
  obtain ⟨seed, -, -, hclass⟩ :=
    exists_seed_of_part hsymm (fun _ h => h) (fun _ _ _ h => h.1.2) hpart
  have : Std.Symm (Steps next all) := ⟨hsymm⟩
  have hseed := (hclass v).mp hv
  rw [hclass]
  exact ⟨(symm_of (Relation.ReflTransGen (Steps next all)) hseed).trans, hseed.trans⟩

/-- **The sets reached from seeds along a symmetric relation are disjoint and closed.** -/
theorem partitionFrom_parted (hsymm : ∀ v w, w ∈ next v → v ∈ next w)
    (hun : ∀ v ∈ unvisited, ∀ w ∈ next v, w ∈ unvisited) :
    Parted next unvisited (partitionFrom next seeds unvisited) := by
  refine ⟨fun part hpart v hv => mem_unvisited_of_part hpart hv, partitionFrom_apart, ?_⟩
  intro part hpart v hv w hw
  have hback : ∀ a b, Steps next unvisited a b → Steps next unvisited b a :=
    fun a b h => ⟨h.1.symm, hsymm a b h.2⟩
  have hvu := mem_unvisited_of_part hpart hv
  exact (mem_part_iff hback hpart hv).mpr (.single ⟨⟨hvu, hun v hvu w hw⟩, hw⟩)

/-- A property of the seeds that successors inherit holds in all parts. -/
lemma partitionFrom_induct {P : Nat → Prop} (hnext : ∀ v, P v → ∀ w ∈ next v, P w)
    (hseeds : ∀ v ∈ seeds, P v) {part : List Nat}
    (hpart : part ∈ partitionFrom next seeds unvisited) {u : Nat} (hu : u ∈ part) : P u := by
  induction seeds generalizing unvisited with
  | nil => simp [partitionFrom] at hpart
  | cons seed seeds ih =>
    have hrest := fun v hv => hseeds v (List.mem_cons_of_mem _ hv)
    rw [partitionFrom] at hpart
    split at hpart
    · rcases List.mem_cons.mp hpart with rfl | hpart
      · have hseed : ∀ v ∈ [seed], P v := by simpa using hseeds seed List.mem_cons_self
        simpa using reach_induct (fun v _ => hnext v) hseed hu
      · exact ih hrest hpart
    · exact ih hrest hpart

/-- Every seed lies in a part. -/
lemma exists_part_of_seed {seed : Nat} (hseed : seed ∈ seeds) (hun : seed ∈ unvisited) :
    ∃ part ∈ partitionFrom next seeds unvisited, seed ∈ part := by
  induction seeds generalizing unvisited with
  | nil => simp at hseed
  | cons s seeds ih =>
    rw [partitionFrom]
    split
    · next hs =>
      set part := reach next unvisited [s] [] with hpart
      by_cases hmem : seed ∈ part
      · exact ⟨part, List.mem_cons_self, hmem⟩
      · have hne : seed ≠ s := fun h =>
          hmem (h ▸ mem_reach_of_agenda List.mem_cons_self hs)
        have hfree : seed ∈ unvisited.filter (· ∉ part) :=
          List.mem_filter.mpr ⟨hun, decide_eq_true hmem⟩
        obtain ⟨q, hq, hsq⟩ := ih (List.mem_of_ne_of_mem hne hseed) hfree
        exact ⟨q, List.mem_cons_of_mem _ hq, hsq⟩
    · next hs =>
      refine ih ?_ hun
      rcases List.mem_cons.mp hseed with rfl | h
      · exact absurd hun hs
      · exact h

/-- The least seed of a set is smaller than all seeds of later sets, if the seeds ascend. -/
lemma partitionFrom_ascending (hasc : seeds.Pairwise (· < ·)) :
    (partitionFrom next seeds unvisited).Pairwise fun p q =>
      ∃ a ∈ p, a ∈ seeds ∧ ∀ b ∈ q, b ∈ seeds → a < b := by
  induction seeds generalizing unvisited with
  | nil => simp [partitionFrom]
  | cons seed seeds ih =>
    obtain ⟨hleast, hasc⟩ := List.pairwise_cons.mp hasc
    -- later sets do not have the first seed
    have hlater : ∀ {left : List Nat}, seed ∉ left →
        (partitionFrom next seeds left).Pairwise fun p q =>
          ∃ a ∈ p, a ∈ seed :: seeds ∧ ∀ b ∈ q, b ∈ seed :: seeds → a < b := by
      intro left hnot
      refine (ih hasc).imp_of_mem fun {p q} _ hq => ?_
      rintro ⟨a, ha, haseed, hlt⟩
      refine ⟨a, ha, List.mem_cons_of_mem _ haseed, fun b hb hbseed => ?_⟩
      have hne : b ≠ seed := fun h => hnot (h ▸ mem_unvisited_of_part hq hb)
      exact hlt b hb (List.mem_of_ne_of_mem hne hbseed)
    rw [partitionFrom]
    split
    · next hseed =>
      have hmem : seed ∈ reach next unvisited [seed] [] :=
        mem_reach_of_agenda List.mem_cons_self hseed
      have hnot : seed ∉ unvisited.filter (· ∉ reach next unvisited [seed] []) := by simp [hmem]
      refine List.pairwise_cons.mpr ⟨fun q hq => ?_, hlater hnot⟩
      refine ⟨seed, hmem, List.mem_cons_self, fun b hb hbseed => ?_⟩
      have hne : b ≠ seed := fun h => hnot (h ▸ mem_unvisited_of_part hq hb)
      exact hleast b (List.mem_of_ne_of_mem hne hbseed)
    · next hseed => exact hlater hseed

end Partition

end QCircuit
