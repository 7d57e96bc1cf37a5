import Mathlib.Data.List.Forall2
import Mathlib.Tactic.Common

/-!
Computations that can fail, one after the other.
-/

namespace QCircuit

variable {ε α β σ : Type}

lemma bind_eq_ok {x : Except ε α} {f : α → Except ε β} {b : β} :
    (x >>= f) = .ok b ↔ ∃ a, x = .ok a ∧ f a = .ok b := by
  cases x <;> simp [bind, Except.bind]

lemma bind_eq_error {x : Except ε α} {f : α → Except ε β} {e : ε} :
    (x >>= f) = .error e ↔ x = .error e ∨ ∃ a, x = .ok a ∧ f a = .error e := by
  cases x <;> simp [bind, Except.bind]

lemma mapError_eq_ok {ε' : Type} {x : Except ε α} {f : ε → ε'} {a : α} :
    x.mapError f = .ok a ↔ x = .ok a := by
  cases x <;> simp [Except.mapError]

lemma mapError_eq_error {ε' : Type} {x : Except ε α} {f : ε → ε'} {e : ε'} :
    x.mapError f = .error e ↔ ∃ e₀, x = .error e₀ ∧ f e₀ = e := by
  cases x <;> simp [Except.mapError]

/-- A list of computations succeeds when all of them do. -/
lemma mapM_eq_ok_iff {f : α → Except ε β} {xs : List α} {ys : List β} :
    xs.mapM f = .ok ys ↔ List.Forall₂ (fun x y => f x = .ok y) xs ys := by
  induction xs generalizing ys with
  | nil => cases ys <;> simp [pure, Except.pure]
  | cons x xs ih =>
    simp only [List.mapM_cons, bind_eq_ok, ih, pure, Except.pure, Except.ok.injEq]
    constructor
    · rintro ⟨y, hy, zs, hzs, rfl⟩
      exact .cons hy hzs
    · rintro (_ | ⟨hy, hzs⟩)
      exact ⟨_, hy, _, hzs, rfl⟩

/-- A list of computations has a value when all of them do. -/
lemma mapM_eq_some_iff {f : α → Option β} {xs : List α} {ys : List β} :
    xs.mapM f = some ys ↔ List.Forall₂ (fun x y => f x = some y) xs ys := by
  induction xs generalizing ys with
  | nil => cases ys <;> simp
  | cons x xs ih =>
    simp only [List.mapM_cons, Option.bind_eq_bind, Option.bind_eq_some_iff, ih, Option.pure_def,
      Option.some.injEq]
    constructor
    · rintro ⟨y, hy, zs, hzs, rfl⟩
      exact .cons hy hzs
    · rintro (_ | ⟨hy, hzs⟩)
      exact ⟨_, hy, _, hzs, rfl⟩

/-- When each computation succeeds on a condition with a known value, so does the list. -/
lemma mapM_eq_ok_iff_of {f : α → Except ε β} {P : α → Prop} {F : α → β} {xs : List α}
    (h : ∀ x ∈ xs, ∀ y, f x = .ok y ↔ P x ∧ y = F x) {ys : List β} :
    xs.mapM f = .ok ys ↔ (∀ x ∈ xs, P x) ∧ ys = xs.map F := by
  rw [mapM_eq_ok_iff]
  induction xs generalizing ys with
  | nil => simp
  | cons x xs ih =>
    have hx := h x List.mem_cons_self
    have hxs : ∀ zs, List.Forall₂ (fun x y => f x = .ok y) xs zs ↔
        (∀ z ∈ xs, P z) ∧ zs = xs.map F :=
      fun zs => ih fun z hz => h z (List.mem_cons_of_mem _ hz)
    simp only [List.forall₂_cons_left_iff, hx, hxs, List.mem_cons, forall_eq_or_imp, List.map_cons]
    constructor
    · rintro ⟨y, zs, ⟨hP, rfl⟩, ⟨hPs, rfl⟩, rfl⟩
      exact ⟨⟨hP, hPs⟩, rfl⟩
    · rintro ⟨⟨hP, hPs⟩, rfl⟩
      exact ⟨_, _, ⟨hP, rfl⟩, ⟨hPs, rfl⟩, rfl⟩

lemma exists_of_forall₂ {R : α → β → Prop} {xs : List α} {ys : List β}
    (h : List.Forall₂ R xs ys) {x : α} (hx : x ∈ xs) : ∃ y ∈ ys, R x y := by
  induction h with
  | nil => simp at hx
  | cons hR _ ih =>
    rcases List.mem_cons.mp hx with rfl | hx
    · exact ⟨_, List.mem_cons_self, hR⟩
    · obtain ⟨y, hy, hR⟩ := ih hx
      exact ⟨y, List.mem_cons_of_mem _ hy, hR⟩

lemma getElem?_of_forall₂ {R : α → β → Prop} {xs : List α} {ys : List β}
    (h : List.Forall₂ R xs ys) {k : Nat} {x : α} (hx : xs[k]? = some x) :
    ∃ y, ys[k]? = some y ∧ R x y := by
  induction h generalizing k with
  | nil => simp at hx
  | cons hR _ ih =>
    cases k with
    | zero =>
      obtain rfl := Option.some.inj hx
      exact ⟨_, rfl, hR⟩
    | succ k => exact ih hx

/-- Two lists that are each related to a third one. -/
lemma forall₂_of_common {γ : Type} {R : α → β → Prop} {S : α → γ → Prop} {T : β → γ → Prop}
    {xs : List α} {ys : List β} {zs : List γ} (hR : List.Forall₂ R xs ys)
    (hS : List.Forall₂ S xs zs) (h : ∀ x ∈ xs, ∀ y z, R x y → S x z → T y z) :
    List.Forall₂ T ys zs := by
  induction hR generalizing zs with
  | nil =>
    cases hS
    exact .nil
  | @cons x y xs ys hxy _ ih =>
    cases hS with
    | cons hxz hS =>
      exact .cons (h x List.mem_cons_self y _ hxy hxz)
        (ih hS fun w hw => h w (List.mem_cons_of_mem _ hw))

lemma ok_of_mapM {f : α → Except ε β} {xs : List α} {ys : List β} (h : xs.mapM f = .ok ys)
    {x : α} (hx : x ∈ xs) : ∃ y ∈ ys, f x = .ok y :=
  exists_of_forall₂ (mapM_eq_ok_iff.mp h) hx

lemma exists_of_mapM {f : α → Except ε β} {xs : List α} {ys : List β} (h : xs.mapM f = .ok ys)
    {y : β} (hy : y ∈ ys) : ∃ x ∈ xs, f x = .ok y :=
  exists_of_forall₂ (mapM_eq_ok_iff.mp h).flip hy

/-- A list of computations fails as one of them does. -/
lemma exists_of_mapM_error {f : α → Except ε β} {xs : List α} {e : ε}
    (h : xs.mapM f = .error e) : ∃ x ∈ xs, f x = .error e := by
  induction xs with
  | nil => simp [pure, Except.pure] at h
  | cons x xs ih =>
    simp only [List.mapM_cons, bind_eq_error, pure, Except.pure, reduceCtorEq, and_false,
      exists_false, or_false] at h
    rcases h with hx | ⟨-, -, hxs⟩
    · exact ⟨x, List.mem_cons_self, hx⟩
    · obtain ⟨y, hy, hfy⟩ := ih hxs
      exact ⟨y, List.mem_cons_of_mem _ hy, hfy⟩

/-- A run over a list fails as it does at one of the members, where what holds at the start and is
kept by every step holds too. -/
lemma exists_of_foldlM_error {f : σ → α → Except ε σ} {I : σ → Prop}
    (hstep : ∀ {s s' x}, I s → f s x = .ok s' → I s') {xs : List α} {s : σ} (hs : I s) {e : ε}
    (h : xs.foldlM f s = .error e) : ∃ x ∈ xs, ∃ s', I s' ∧ f s' x = .error e := by
  induction xs generalizing s with
  | nil => simp [pure, Except.pure] at h
  | cons x xs ih =>
    rcases bind_eq_error.mp h with hx | ⟨s', hx, h⟩
    · exact ⟨x, List.mem_cons_self, s, hs, hx⟩
    · obtain ⟨y, hy, hrest⟩ := ih (hstep hs hx) h
      exact ⟨y, List.mem_cons_of_mem _ hy, hrest⟩

/-! ### Computations that agree -/

lemma bind_congr_ok {x : Except ε α} {f g : α → Except ε β} (h : ∀ a, x = .ok a → f a = g a) :
    (x >>= f) = x >>= g := by
  cases x with
  | error e => rfl
  | ok a => exact h a rfl

lemma mapM_congr {f g : α → Except ε β} {xs : List α} (h : ∀ x ∈ xs, f x = g x) :
    xs.mapM f = xs.mapM g := by
  induction xs with
  | nil => rfl
  | cons x xs ih =>
    rw [List.mapM_cons, List.mapM_cons, h x List.mem_cons_self,
      ih fun y hy => h y (List.mem_cons_of_mem _ hy)]

lemma foldlM_congr {f g : σ → α → Except ε σ} {xs : List α} (h : ∀ x ∈ xs, ∀ s, f s x = g s x)
    (s : σ) : xs.foldlM f s = xs.foldlM g s := by
  induction xs generalizing s with
  | nil => rfl
  | cons x xs ih =>
    rw [List.foldlM_cons, List.foldlM_cons, h x List.mem_cons_self]
    exact bind_congr_ok fun s' _ => ih (fun y hy => h y (List.mem_cons_of_mem _ hy)) s'

lemma exists_mapM_ok {f : α → Except ε β} {xs : List α} :
    (∃ ys, xs.mapM f = .ok ys) ↔ ∀ x ∈ xs, ∃ y, f x = .ok y := by
  constructor
  · rintro ⟨ys, h⟩ x hx
    obtain ⟨y, -, hy⟩ := ok_of_mapM h hx
    exact ⟨y, hy⟩
  · intro h
    induction xs with
    | nil => exact ⟨[], rfl⟩
    | cons x xs ih =>
      obtain ⟨y, hy⟩ := h x List.mem_cons_self
      obtain ⟨ys, hys⟩ := ih fun z hz => h z (List.mem_cons_of_mem _ hz)
      exact ⟨y :: ys, by rw [List.mapM_cons, hy, hys]; rfl⟩

/-- A list that is computed without error is computed with a value. -/
lemma mapM_some_of_ok {f : α → Except ε β} {h : α → Option β} {xs : List α} {ys : List β}
    (hf : ∀ x y, f x = .ok y → h x = some y) (hxs : xs.mapM f = .ok ys) :
    xs.mapM h = some ys := by
  rw [mapM_eq_ok_iff] at hxs
  rw [mapM_eq_some_iff]
  exact hxs.imp hf

/-- Different arguments have different values. -/
lemma nodup_of_mapM {f : α → Option β} {xs : List α} {ys : List β} (hnd : xs.Nodup)
    (hinj : ∀ a ∈ xs, ∀ b ∈ xs, ∀ d, f a = some d → f b = some d → a = b)
    (h : xs.mapM f = some ys) : ys.Nodup ∧ ∀ y ∈ ys, ∃ x ∈ xs, f x = some y := by
  rw [mapM_eq_some_iff] at h
  induction h with
  | nil => simp
  | @cons x y xs ys hy hrest ih =>
    obtain ⟨hx, hnd⟩ := List.nodup_cons.mp hnd
    obtain ⟨hys, hfrom⟩ := ih hnd fun a ha b hb =>
      hinj a (List.mem_cons_of_mem _ ha) b (List.mem_cons_of_mem _ hb)
    refine ⟨List.nodup_cons.mpr ⟨fun hmem => ?_, hys⟩, fun z hz => ?_⟩
    · obtain ⟨x', hx', hfx'⟩ := hfrom y hmem
      exact hx (hinj x List.mem_cons_self x' (List.mem_cons_of_mem _ hx') y hy hfx' ▸ hx')
    · rcases List.mem_cons.mp hz with rfl | hz
      · exact ⟨x, List.mem_cons_self, hy⟩
      · obtain ⟨x', hx', hfx'⟩ := hfrom z hz
        exact ⟨x', List.mem_cons_of_mem _ hx', hfx'⟩

/-! ### Two computations side by side -/

/-- The second computation succeeds when the first does, and with the image of its value. -/
def Lifts (f : α → β) (x : Except ε α) (y : Except ε β) : Prop := y.toOption = x.toOption.map f

namespace Lifts

variable {γ δ : Type}

lemma ok_iff {f : α → β} {x : Except ε α} {y : Except ε β} (h : Lifts f x y) {b : β} :
    y = .ok b ↔ ∃ a, x = .ok a ∧ f a = b := by
  cases x <;> cases y <;> simp_all [Lifts, Except.toOption]

lemma of_ok_iff {f : α → β} {x : Except ε α} {y : Except ε β}
    (h : ∀ b, y = .ok b ↔ ∃ a, x = .ok a ∧ f a = b) : Lifts f x y := by
  cases x <;> cases y <;> simp_all [Lifts, Except.toOption]

lemma ok (f : α → β) (a : α) : Lifts f (.ok a : Except ε α) (.ok (f a)) := rfl

lemma error (f : α → β) (e e' : ε) : Lifts f (.error e) (.error e') := rfl

lemma bind {f : α → β} {k : γ → δ} {x : Except ε α} {y : Except ε β} {F : α → Except ε γ}
    {G : β → Except ε δ} (h : Lifts f x y) (hF : ∀ a, x = .ok a → Lifts k (F a) (G (f a))) :
    Lifts k (x >>= F) (y >>= G) := by
  cases x with
  | error e => cases y <;> simp_all [Lifts, Except.toOption, Bind.bind, Except.bind]
  | ok a =>
    cases y with
    | error e => simp_all [Lifts, Except.toOption]
    | ok b =>
      obtain rfl : b = f a := by simpa [Lifts, Except.toOption] using h
      exact hF a rfl

/-- The same computation first on both sides. -/
lemma bind_same {k : γ → δ} {x : Except ε α} {F : α → Except ε γ} {G : α → Except ε δ}
    (hF : ∀ a, x = .ok a → Lifts k (F a) (G a)) : Lifts k (x >>= F) (x >>= G) := by
  cases x with
  | error e => rfl
  | ok a => exact hF a rfl

lemma mapM {f : γ → δ} {F : α → Except ε γ} {G : α → Except ε δ} {xs : List α}
    (h : ∀ x ∈ xs, Lifts f (F x) (G x)) : Lifts (List.map f) (xs.mapM F) (xs.mapM G) := by
  induction xs with
  | nil => rfl
  | cons x xs ih =>
    rw [List.mapM_cons, List.mapM_cons]
    refine (h x List.mem_cons_self).bind fun y _ => ?_
    exact (ih fun z hz => h z (List.mem_cons_of_mem _ hz)).bind fun ys _ => ok _ _

end Lifts

end QCircuit
