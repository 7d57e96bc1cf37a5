import Mathlib.Tactic
import QCircuit.Proofs.Fallible
import QCircuit.Proofs.Json.Reading

/-!
Typed data is read back out of the values that it is written as.
-/

namespace QCircuit.Json.Value

/-! ### Literals inside of a value -/

@[simp] lemma plain_null : Value.null.Plain := by simp [Plain, tokens, Token.Plain]

@[simp] lemma plain_bool (b : Bool) : (Value.bool b).Plain := by simp [Plain, tokens, Token.Plain]

@[simp] lemma plain_text (s : String) : (Value.text s).Plain := by
  simp [Plain, Value.text, tokens, Token.Plain]

@[simp] lemma plain_int (n : ℤ) : (Value.int n).Plain := by
  simp [Plain, Value.int, tokens, Token.Plain, Numeral.Plain]

@[simp] lemma plain_nat (n : ℕ) : (Value.nat n).Plain := plain_int n

@[simp] lemma plain_float (x : Float) : (Value.float x).Plain := by
  unfold Value.float
  cases h : Numeral.ofFloat? x with
  | none => exact plain_null
  | some n => simpa [Plain, tokens, Token.Plain] using Numeral.plain_of_float h

lemma mem_itemTokens {t : Token} {vs : List Value} (h : t ∈ itemTokens vs) :
    t = .comma ∨ ∃ v ∈ vs, t ∈ v.tokens := by
  induction vs with
  | nil => simp [itemTokens] at h
  | cons v vs ih =>
    simp only [itemTokens, List.mem_cons, List.mem_append] at h
    grind

lemma mem_fieldTokens {t : Token} {fs : List (Str × Value)} (h : t ∈ fieldTokens fs) :
    t = .comma ∨ t = .colon ∨ (∃ k, t = .str k) ∨ ∃ f ∈ fs, t ∈ f.2.tokens := by
  induction fs with
  | nil => simp [fieldTokens] at h
  | cons f fs ih =>
    obtain ⟨k, v⟩ := f
    simp only [fieldTokens, List.mem_cons, List.mem_append] at h
    rcases h with (rfl | rfl | rfl | h) | h
    · exact .inl rfl
    · exact .inr (.inr (.inl ⟨k, rfl⟩))
    · exact .inr (.inl rfl)
    · exact .inr (.inr (.inr ⟨(k, v), by simp, h⟩))
    · rcases ih h with rfl | rfl | hk | ⟨f, hf, ht⟩
      · exact .inl rfl
      · exact .inr (.inl rfl)
      · exact .inr (.inr (.inl hk))
      · exact .inr (.inr (.inr ⟨f, by simp [hf], ht⟩))

lemma plain_arr {vs : List Value} (h : ∀ v ∈ vs, v.Plain) : (Value.arr vs).Plain := by
  intro t ht
  cases vs with
  | nil =>
    simp only [tokens, List.mem_cons, List.not_mem_nil, or_false] at ht
    rcases ht with rfl | rfl <;> trivial
  | cons v vs =>
    have hitems : t = .openArr ∨ t = .closeArr ∨ t ∈ itemTokens (v :: vs) := by
      simp only [tokens, itemTokens, List.mem_cons, List.mem_append] at ht ⊢
      grind
    rcases hitems with rfl | rfl | ht
    · trivial
    · trivial
    · rcases mem_itemTokens ht with rfl | ⟨w, hw, ht⟩
      · trivial
      · exact h w hw t ht

lemma plain_obj {fs : List (Str × Value)} (h : ∀ f ∈ fs, f.2.Plain) : (Value.obj fs).Plain := by
  intro t ht
  cases fs with
  | nil =>
    simp only [tokens, List.mem_cons, List.not_mem_nil, or_false] at ht
    rcases ht with rfl | rfl <;> trivial
  | cons f fs =>
    have hfields : t = .openObj ∨ t = .closeObj ∨ t ∈ fieldTokens (f :: fs) := by
      simp only [tokens, fieldTokens, List.mem_cons, List.mem_append] at ht ⊢
      grind
    rcases hfields with rfl | rfl | ht
    · trivial
    · trivial
    · rcases mem_fieldTokens ht with rfl | rfl | ⟨k, rfl⟩ | ⟨w, hw, ht⟩
      · trivial
      · trivial
      · trivial
      · exact h w hw t ht

lemma plain_list {α : Type} {f : α → Value} {xs : List α} (h : ∀ x ∈ xs, (f x).Plain) :
    (Value.list f xs).Plain :=
  plain_arr (by simpa using h)

lemma plain_record {fs : List (String × Value)} (h : ∀ f ∈ fs, f.2.Plain) :
    (Value.record fs).Plain := by
  refine plain_obj fun f hf => ?_
  obtain ⟨⟨k, v⟩, hmem, rfl⟩ := List.mem_map.mp hf
  exact h _ hmem

/-! ### Fields of a record -/

/-- The fields that are set; the others are left out. -/
def present (fs : List (String × Option Value)) : List (String × Value) :=
  fs.filterMap fun (k, v) => v.map (k, ·)

lemma plain_present {fs : List (String × Option Value)} (h : ∀ p ∈ fs, ∀ v ∈ p.2, v.Plain) :
    (Value.record (present fs)).Plain := by
  refine plain_record fun f hf => ?_
  obtain ⟨⟨k, v⟩, hmem, hv⟩ := List.mem_filterMap.mp hf
  obtain ⟨w, rfl, rfl⟩ := Option.map_eq_some_iff.mp hv
  exact h _ hmem w rfl

/-- The fields of a record as those of an object. -/
def fieldsOf (fs : List (String × Value)) : List (Str × Value) :=
  fs.map fun (k, v) => (.text k, v)

section present

variable {fs : List (String × Option Value)} {k name : String} {v : Option Value}

lemma fieldsOf_present_cons (k : String) (v : Option Value) (fs : List (String × Option Value)) :
    fieldsOf (present ((k, v) :: fs)) =
      (v.map (Str.text k, ·)).toList ++ fieldsOf (present fs) := by
  cases v <;> rfl

lemma filter_present_eq_nil (h : name ∉ fs.map Prod.fst) :
    (fieldsOf (present fs)).filter (·.1 = .text name) = [] := by
  induction fs with
  | nil => rfl
  | cons f fs ih =>
    obtain ⟨k, v⟩ := f
    obtain ⟨hk, hfs⟩ : name ≠ k ∧ name ∉ fs.map Prod.fst := by simpa using h
    rw [fieldsOf_present_cons, List.filter_append, ih hfs]
    cases v <;> simp [hk.symm]

lemma field?_present (h : (fs.map Prod.fst).Nodup) (hmem : (name, v) ∈ fs) :
    field? (fieldsOf (present fs)) name = some v := by
  induction fs with
  | nil => simp at hmem
  | cons f fs ih =>
    obtain ⟨k, w⟩ := f
    obtain ⟨hk, hnodup⟩ := List.nodup_cons.mp h
    rw [field?, fieldsOf_present_cons, List.filter_append]
    rcases List.mem_cons.mp hmem with heq | hmem
    · obtain ⟨rfl, rfl⟩ := Prod.mk.inj heq
      rw [filter_present_eq_nil hk]
      cases v <;> simp
    · have hne : k ≠ name := by
        rintro rfl
        exact hk (List.mem_map.mpr ⟨_, hmem, rfl⟩)
      have hhead : ((w.map (Str.text k, ·)).toList).filter (·.1 = .text name) = [] := by
        cases w <;> simp [hne]
      rw [hhead, List.nil_append]
      exact ih hnodup hmem

lemma mapM_fst {f : String → Option (Option Value)} (h : ∀ p ∈ fs, f p.1 = some p.2) :
    (fs.map Prod.fst).mapM f = some (fs.map Prod.snd) := by
  rw [mapM_eq_some_iff, List.forall₂_map_left_iff, List.forall₂_map_right_iff]
  exact List.forall₂_same.mpr h

/-- **Records are read back**, with nothing in the place of a field that was left out. -/
theorem fields?_record_present (fs : List (String × Option Value)) (h : (fs.map Prod.fst).Nodup) :
    (Value.record (present fs)).fields? (fs.map Prod.fst) = some (fs.map Prod.snd) := by
  have hpaired : ¬ (fieldsOf (present fs)).any (·.1 = .unpaired) := by simp [fieldsOf]
  calc (Value.record (present fs)).fields? (fs.map Prod.fst)
      = (fs.map Prod.fst).mapM (field? (fieldsOf (present fs))) := if_neg hpaired
    _ = some (fs.map Prod.snd) := mapM_fst fun p hp => field?_present h hp

end present

/-! ### Numbers, lists and what may be left out -/

@[simp] lemma text?_text (s : String) : (Value.text s).text? = some s := rfl

lemma nat?_nat {n bound : ℕ} (h : n < bound) : (Value.nat n).nat? bound = some n := by
  simp [nat?, Value.nat, int?, h]

lemma word32?_nat {n : ℕ} (h : n < 4294967296) : (Value.nat n).word32? = some n := nat?_nat h

lemma word64?_nat {n : ℕ} (h : n < 18446744073709551616) : (Value.nat n).word64? = some n :=
  nat?_nat h

lemma int64?_int {n : ℤ} (hlow : -9223372036854775808 ≤ n) (hhigh : n < 9223372036854775808) :
    (Value.int n).int64? = some n := by
  simp [int64?, Value.int, int?, hlow, hhigh]

/-- A list is read back if and only if each item of it is. -/
lemma list?_list_iff {α : Type} {f : α → Value} {g : Value → Option α} {xs : List α} :
    (Value.list f xs).list? g = some xs ↔ ∀ x ∈ xs, g (f x) = some x := by
  rw [Value.list, list?, List.mapM_map]
  exact mapM_eq_some_iff.trans List.forall₂_same

/-- What may be left out is read back if and only if it is read back where it stands. -/
lemma nullable?_map_iff {α : Type} {f : α → Value} {g : Value → Option α} (hnull : g .null = none)
    {x : Option α} :
    ((x.map f).getD .null).nullable? g = some x ↔ ∀ a ∈ x, g (f a) = some a := by
  cases x with
  | none => simp [nullable?]
  | some a => cases hv : f a <;> simp [nullable?, hv, hnull]

lemma list?_word32 {bs : List ℕ} (h : ∀ b ∈ bs, b < 4294967296) :
    (Value.list Value.nat bs).list? word32? = some bs :=
  list?_list_iff.mpr fun b hb => word32?_nat (h b hb)

end QCircuit.Json.Value
