import Mathlib.Tactic
import QCircuit.Proofs.Json.Scanning

/-!
Written values are read back.

The text of a value, on one line or indented, is the text of its tokens with blanks in between. The
reader goes through these tokens wherever a value may stand, and has the value then.
-/

namespace QCircuit.Json

/-! ### Layout -/

lemma spaced_token (t : Token) : Spaced t.text [t] := by simpa using Spaced.token t .nil

lemma spaced_newline (depth : ℕ) : Spaced (Value.newline depth) [] := by
  refine .blank (.inr rfl) ?_
  induction 2 * depth with
  | zero => exact .nil
  | succ n ih => exact .blank (.inl rfl) ih

lemma spaced_key (k : Str) : Spaced (k.quoted ++ [':', ' ']) [.str k, .colon] :=
  .token (.str k) (.token .colon (.blank (.inl rfl) .nil))

mutual

lemma spaced_layout (depth : ℕ) : (v : Value) → Spaced (v.layout depth) v.tokens
  | .null | .bool _ | .num _ | .str _ | .arr [] | .obj [] => by
    rw [Value.layout]
    · exact spaced_flatMap_text _
    all_goals simp
  | .arr (v :: vs) => by
    have hitems := (spaced_layout (depth + 1) v).append (spaced_itemLayout (depth + 1) vs)
    have hopen := ((spaced_token .openArr).append (spaced_newline (depth + 1))).append hitems
    have hclose := (spaced_newline depth).append (spaced_token .closeArr)
    simpa [Value.layout, Value.tokens, Token.text] using hopen.append hclose
  | .obj ((k, v) :: fs) => by
    have hfields := ((spaced_key k).append (spaced_layout (depth + 1) v)).append
      (spaced_fieldLayout (depth + 1) fs)
    have hopen := ((spaced_token .openObj).append (spaced_newline (depth + 1))).append hfields
    have hclose := (spaced_newline depth).append (spaced_token .closeObj)
    simpa [Value.layout, Value.tokens, Token.text] using hopen.append hclose

lemma spaced_itemLayout (depth : ℕ) :
    (vs : List Value) → Spaced (Value.itemLayout depth vs) (Value.itemTokens vs)
  | [] => .nil
  | v :: vs => by
    have hitem := (spaced_newline depth).append (spaced_layout depth v)
    have hcomma := (spaced_token .comma).append (hitem.append (spaced_itemLayout depth vs))
    simpa [Value.itemLayout, Value.itemTokens, Token.text] using hcomma

lemma spaced_fieldLayout (depth : ℕ) :
    (fs : List (Str × Value)) → Spaced (Value.fieldLayout depth fs) (Value.fieldTokens fs)
  | [] => .nil
  | (k, v) :: fs => by
    have hfield := (spaced_newline depth).append ((spaced_key k).append (spaced_layout depth v))
    have hcomma := (spaced_token .comma).append (hfield.append (spaced_fieldLayout depth fs))
    simpa [Value.fieldLayout, Value.fieldTokens, Token.text] using hcomma

end

/-! ### Words stand apart -/

/-- What may follow a word. -/
structure Fence (ts : List Token) : Prop where
  fenced : Fenced ts
  head : ∀ t ∈ ts.head?, t.isWord = false

lemma fence_nil : Fence [] := ⟨.nil, by simp⟩

lemma Fence.of_mark {t : Token} {ts : List Token} (ht : t.isWord = false) (h : Fenced ts) :
    Fence (t :: ts) :=
  ⟨List.isChain_cons.mpr ⟨fun _ _ => .inl ht, h⟩, by simpa using ht⟩

lemma Fence.fenced_cons {ts : List Token} (h : Fence ts) (t : Token) : Fenced (t :: ts) :=
  List.isChain_cons.mpr ⟨fun u hu => .inr (h.head u hu), h.fenced⟩

mutual

lemma fenced_tokens {rest : List Token} (h : Fence rest) : (v : Value) → Fenced (v.tokens ++ rest)
  | .null | .bool _ | .num _ | .str _ => h.fenced_cons _
  | .arr [] | .obj [] => (Fence.of_mark rfl (Fence.of_mark rfl h.fenced).fenced).fenced
  | .arr (v :: vs) => by
    have hclose : Fence (.closeArr :: rest) := .of_mark rfl h.fenced
    have hitems := fenced_tokens (fence_itemTokens hclose vs) v
    simpa [Value.tokens] using (Fence.of_mark (t := .openArr) rfl hitems).fenced
  | .obj ((k, v) :: fs) => by
    have hclose : Fence (.closeObj :: rest) := .of_mark rfl h.fenced
    have hfields := fenced_tokens (fence_fieldTokens hclose fs) v
    have hkey := Fence.of_mark (t := .str k) rfl (Fence.of_mark (t := .colon) rfl hfields).fenced
    simpa [Value.tokens] using (Fence.of_mark (t := .openObj) rfl hkey.fenced).fenced

lemma fence_itemTokens {rest : List Token} (h : Fence rest) :
    (vs : List Value) → Fence (Value.itemTokens vs ++ rest)
  | [] => h
  | v :: vs => by
    have hitem := fenced_tokens (fence_itemTokens h vs) v
    simpa [Value.itemTokens] using Fence.of_mark (t := .comma) rfl hitem

lemma fence_fieldTokens {rest : List Token} (h : Fence rest) :
    (fs : List (Str × Value)) → Fence (Value.fieldTokens fs ++ rest)
  | [] => h
  | (k, v) :: fs => by
    have hfield := fenced_tokens (fence_fieldTokens h fs) v
    have hkey := Fence.of_mark (t := .str k) rfl (Fence.of_mark (t := .colon) rfl hfield).fenced
    simpa [Value.fieldTokens] using Fence.of_mark (t := .comma) rfl hkey.fenced

end

/-! ### Tokens to values -/

namespace Reader

/-- An array may start with any value that may stand anywhere. -/
lemma run_items (fs : List Frame) (v : Value) (rest : List Token) :
    run (.items fs) (v.tokens ++ rest) = run (.value (.arr [] :: fs)) (v.tokens ++ rest) := by
  rcases v with _ | _ | _ | _ | ⟨_ | _⟩ | ⟨_ | ⟨⟨_, _⟩, _⟩⟩ <;> rfl

mutual

/-- **Reading**: the tokens of a value lead past it, wherever a value may stand. -/
theorem run_tokens (fs : List Frame) (rest : List Token) :
    (v : Value) → run (.value fs) (v.tokens ++ rest) = run (.after v fs) rest
  | .null | .bool _ | .num _ | .str _ | .arr [] | .obj [] => rfl
  | .arr (v :: vs) =>
    calc run (.value fs) ((Value.arr (v :: vs)).tokens ++ rest)
        = run (.items fs) (v.tokens ++ (Value.itemTokens vs ++ .closeArr :: rest)) := by
          simp [Value.tokens, step, begin]
      _ = run (.after v (.arr [] :: fs)) (Value.itemTokens vs ++ .closeArr :: rest) := by
          rw [run_items, run_tokens _ _ v]
      _ = run (.after (.arr (v :: vs)) fs) rest := run_itemTokens v [] fs rest vs
  | .obj ((k, v) :: gs) =>
    calc run (.value fs) ((Value.obj ((k, v) :: gs)).tokens ++ rest)
        = run (.value (.obj [] k :: fs))
            (v.tokens ++ (Value.fieldTokens gs ++ .closeObj :: rest)) := by
          simp [Value.tokens, step, begin]
      _ = run (.after v (.obj [] k :: fs)) (Value.fieldTokens gs ++ .closeObj :: rest) :=
          run_tokens _ _ v
      _ = run (.after (.obj ((k, v) :: gs)) fs) rest := run_fieldTokens k v [] fs rest gs

theorem run_itemTokens (v : Value) (rev : List Value) (fs : List Frame) (rest : List Token) :
    (vs : List Value) → run (.after v (.arr rev :: fs)) (Value.itemTokens vs ++ .closeArr :: rest) =
      run (.after (.arr ((v :: rev).reverse ++ vs)) fs) rest
  | [] => by simp [Value.itemTokens, step]
  | w :: vs =>
    calc run (.after v (.arr rev :: fs)) (Value.itemTokens (w :: vs) ++ .closeArr :: rest)
        = run (.value (.arr (v :: rev) :: fs))
            (w.tokens ++ (Value.itemTokens vs ++ .closeArr :: rest)) := by
          simp [Value.itemTokens, step]
      _ = run (.after w (.arr (v :: rev) :: fs)) (Value.itemTokens vs ++ .closeArr :: rest) :=
          run_tokens _ _ w
      _ = run (.after (.arr ((v :: rev).reverse ++ w :: vs)) fs) rest := by
          rw [run_itemTokens w (v :: rev) fs rest vs]
          simp

theorem run_fieldTokens (k : Str) (v : Value) (rev : List (Str × Value)) (fs : List Frame)
    (rest : List Token) :
    (gs : List (Str × Value)) →
      run (.after v (.obj rev k :: fs)) (Value.fieldTokens gs ++ .closeObj :: rest) =
        run (.after (.obj (((k, v) :: rev).reverse ++ gs)) fs) rest
  | [] => by simp [Value.fieldTokens, step]
  | (l, w) :: gs =>
    calc run (.after v (.obj rev k :: fs)) (Value.fieldTokens ((l, w) :: gs) ++ .closeObj :: rest)
        = run (.value (.obj ((k, v) :: rev) l :: fs))
            (w.tokens ++ (Value.fieldTokens gs ++ .closeObj :: rest)) := by
          simp [Value.fieldTokens, step]
      _ = run (.after w (.obj ((k, v) :: rev) l :: fs))
            (Value.fieldTokens gs ++ .closeObj :: rest) := run_tokens _ _ w
      _ = run (.after (.obj (((k, v) :: rev).reverse ++ (l, w) :: gs)) fs) rest := by
          rw [run_fieldTokens l w ((k, v) :: rev) fs rest gs]
          simp

end

end Reader

/-! ### Text to values -/

/-- The literals of a value are written as they are read. -/
def Value.Plain (v : Value) : Prop := ∀ t ∈ v.tokens, t.Plain

lemma parse?_spaced {v : Value} (hplain : v.Plain) {s : String} (h : Spaced s.toList v.tokens) :
    parse? s = some v := by
  have hfenced : Fenced v.tokens := by simpa using fenced_tokens fence_nil v
  have hscan : Scan.tokens? s.toList = some v.tokens := scan_spaced h hfenced hplain []
  have hrun : Reader.run (.value []) v.tokens = some (.after v []) := by
    simpa using Reader.run_tokens [] [] v
  simp [parse?, hscan, hrun, Reader.St.done?]

/-- **Values are read back** from their text on one line. -/
theorem parse?_compact {v : Value} (hplain : v.Plain) : parse? v.compact = some v := by
  refine parse?_spaced hplain ?_
  rw [Value.compact, String.toList_ofList]
  exact spaced_flatMap_text _

/-- **Values are read back** from their indented text. -/
theorem parse?_pretty {v : Value} (hplain : v.Plain) : parse? v.pretty = some v := by
  refine parse?_spaced hplain ?_
  rw [Value.pretty, String.toList_ofList]
  exact spaced_layout 0 v

end QCircuit.Json
