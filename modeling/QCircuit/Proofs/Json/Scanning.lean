import Mathlib.Tactic
import QCircuit.Json.Reader
import QCircuit.Json.Writer
import QCircuit.Proofs.Json.Numerals

/-!
Written tokens are scanned back.

Written text is the text of its tokens with blanks in between, however it is laid out. Two words
never stand side by side, so the scan finds the end of each.
-/

namespace QCircuit.Json

namespace Scan

/-! ### String literals -/

/-- A mark that stands for a character by itself. -/
inductive Stands : Mark → Char → Prop where
  | char (c : Char) : Stands (.char c) c
  | unit {c : Char} (h : c.toNat < 0x20) : Stands (.unit c.toNat) c

lemma assemble_cons {m : Mark} {c : Char} (h : Stands m c) (ms : List Mark) :
    assemble (m :: ms) = (assemble ms).map (c :: ·) := by
  cases h with
  | char => rfl
  | unit h =>
    have hhigh : isHigh c.toNat = false := by simp [isHigh]; omega
    have hlow : isLow c.toNat = false := by simp [isLow]; omega
    rcases ms with _ | ⟨_ | _, ms⟩ <;> simp [assemble, hhigh, hlow]

lemma hexValue?_hexDigit (n : ℕ) : hexValue? (hexDigit n) = some (n % 16) := by
  have h : ∀ k : Fin 16, hexValue? (Nat.digitChar k) = some k.val := by decide
  exact h ⟨n % 16, Nat.mod_lt _ (by decide)⟩

/-- A character is escaped so that the scan collects one mark for it. -/
lemma run_escape (c : Char) : ∃ m, Stands m c ∧ ∀ rev out cs,
    run ⟨.quoted rev, out⟩ (escape c ++ cs) = run ⟨.quoted (m :: rev), out⟩ cs := by
  by_cases hshort : c = '"' ∨ c = '\\' ∨ c = '\n' ∨ c = '\r' ∨ c = '\t' ∨ c = '\x08' ∨ c = '\x0c'
  · refine ⟨.char c, .char c, fun rev out cs => ?_⟩
    rcases hshort with rfl | rfl | rfl | rfl | rfl | rfl | rfl <;> rfl
  · simp only [not_or] at hshort
    by_cases hcontrol : c.toNat < 0x20
    · refine ⟨.unit c.toNat, .unit hcontrol, fun rev out cs => ?_⟩
      have hzero : hexValue? '0' = some 0 := by decide
      have hunit : 16 * (c.toNat / 16 % 16) + c.toNat % 16 = c.toNat := by omega
      simp [escape, hshort, hcontrol, step, hzero, hexValue?_hexDigit, hunit]
    · refine ⟨.char c, .char c, fun rev out cs => ?_⟩
      simp [escape, hshort, hcontrol, step]

lemma run_escaped (s : List Char) : ∃ ms, assemble ms = some s ∧ ∀ rev out cs,
    run ⟨.quoted rev, out⟩ (s.flatMap escape ++ cs) =
      run ⟨.quoted (ms.reverse ++ rev), out⟩ cs := by
  induction s with
  | nil => exact ⟨[], rfl, fun _ _ _ => rfl⟩
  | cons c s ih =>
    obtain ⟨m, hm, hrun⟩ := run_escape c
    obtain ⟨ms, hms, hruns⟩ := ih
    refine ⟨m :: ms, by rw [assemble_cons hm, hms, Option.map_some], fun rev out cs => ?_⟩
    simp [List.flatMap_cons, hrun, hruns]

lemma quoted_unpaired :
    Str.unpaired.quoted = ['"', '\\', 'u', 'd', '8', '0', '0', '"'] := by decide

/-- **Strings are scanned back**, whatever their characters. -/
theorem run_quoted (s : Str) (out : List Token) (cs : List Char) :
    run ⟨.gap, out⟩ (s.quoted ++ cs) = run ⟨.gap, .str s :: out⟩ cs := by
  cases s with
  | unpaired =>
    have hhex : hexValue? 'd' = some 13 ∧ hexValue? '8' = some 8 ∧ hexValue? '0' = some 0 := by
      decide
    have hfinish : finish [.unit 55296] = .unpaired := by decide
    simp [quoted_unpaired, step, start, hhex, hfinish]
  | text s =>
    obtain ⟨ms, hms, hrun⟩ := run_escaped s.toList
    have hquoted : (Str.text s).quoted = '"' :: (s.toList.flatMap escape ++ ['"']) := rfl
    have hfinish : finish ms = .text s := by simp [finish, hms]
    simp [hquoted, step, start, hrun, hfinish]

/-! ### Words -/

/-- A text that does not go on with a word. -/
def Apart (cs : List Char) : Prop := ∀ c ∈ cs.head?, isWord c = false

/-- The tokens of a text after those in `out`, last one first. -/
def scan (out : List Token) (cs : List Char) : Option (List Token) :=
  (run ⟨.gap, out⟩ cs).bind St.tokens?

lemma run_word {word : List Char} (hword : ∀ c ∈ word, isWord c) (rev : List Char)
    (out : List Token) (cs : List Char) :
    run ⟨.word rev, out⟩ (word ++ cs) = run ⟨.word (word.reverse ++ rev), out⟩ cs := by
  induction word generalizing rev with
  | nil => rfl
  | cons c word ih =>
    have hc := hword c (by simp)
    simp [step, hc, ih fun b hb => hword b (by simp [hb])]

lemma start_of_isWord {c : Char} (hc : isWord c) (out : List Token) :
    start out c = some ⟨.word [c], out⟩ := by
  have hne : ∀ d, isWord d = false → c ≠ d := by
    rintro d hd rfl
    simp [hd] at hc
  simp [start, hne ' ' rfl, hne '\n' rfl, hne '\t' rfl, hne '\r' rfl, hne '[' rfl, hne ']' rfl,
    hne '\x7b' rfl, hne '\x7d' rfl, hne ':' rfl, hne ',' rfl, hne '"' rfl, hc]

/-- A word ends before whatever is not part of one. -/
lemma scan_word {word cs : List Char} (hne : word ≠ []) (hword : ∀ c ∈ word, isWord c)
    (hcs : Apart cs) {t : Token} (ht : Token.ofWord? word = some t) (out : List Token) :
    scan out (word ++ cs) = scan (t :: out) cs := by
  obtain ⟨c, word, rfl⟩ := List.exists_cons_of_ne_nil hne
  have hstart : step ⟨.gap, out⟩ c = some ⟨.word [c], out⟩ :=
    start_of_isWord (hword c (by simp)) out
  have hrun : run ⟨.word [c], out⟩ (word ++ cs) = run ⟨.word (c :: word).reverse, out⟩ cs := by
    rw [run_word fun b hb => hword b (by simp [hb]), List.reverse_cons]
  rw [scan, scan, List.cons_append, run_cons, hstart, Option.bind_some, hrun]
  cases cs with
  | nil => simp only [run_nil, Option.bind_some, St.tokens?, List.reverse_reverse, ht,
      Option.map_some]
  | cons d cs =>
    have hd := hcs d rfl
    simp only [run_cons, step, hd, List.reverse_reverse, ht, Option.bind_some, Bool.false_eq_true,
      if_false]

end Scan

/-! ### Text with blanks between the tokens -/

/-- The text of the tokens in order, with blanks anywhere between them. -/
inductive Spaced : List Char → List Token → Prop where
  | nil : Spaced [] []
  | blank {c : Char} {cs : List Char} {ts : List Token} (hc : c = ' ' ∨ c = '\n')
      (h : Spaced cs ts) : Spaced (c :: cs) ts
  | token (t : Token) {cs : List Char} {ts : List Token} (h : Spaced cs ts) :
      Spaced (t.text ++ cs) (t :: ts)

lemma Spaced.append {as bs : List Char} {ts us : List Token} (ha : Spaced as ts)
    (hb : Spaced bs us) : Spaced (as ++ bs) (ts ++ us) := by
  induction ha with
  | nil => exact hb
  | blank hc _ ih => exact .blank hc ih
  | token t _ ih =>
    rw [List.append_assoc]
    exact .token t ih

lemma spaced_flatMap_text (ts : List Token) : Spaced (ts.flatMap Token.text) ts := by
  induction ts with
  | nil => exact .nil
  | cons t ts ih => exact .token t ih

namespace Token

/-- Whether the token is a word. -/
def isWord : Token → Bool
  | .null | .bool _ | .num _ => true
  | _ => false

/-- The tokens that are written as they are read. -/
def Plain : Token → Prop
  | .num n => n.Plain
  | _ => True

lemma ofWord?_text {t : Token} (ht : t.isWord) (hplain : t.Plain) : ofWord? t.text = some t := by
  cases t with
  | null => decide
  | bool b => cases b <;> decide
  | num n => exact Numeral.ofWord?_text hplain
  | _ => simp [isWord] at ht

lemma isWord_of_mem_text {t : Token} (ht : t.isWord) : ∀ c ∈ t.text, Scan.isWord c := by
  cases t with
  | null => exact List.all_eq_true.mp rfl
  | bool b => cases b <;> exact List.all_eq_true.mp rfl
  | num n => exact Numeral.isWord_of_mem_text
  | _ => simp [isWord] at ht

lemma text_ne_nil {t : Token} (ht : t.isWord) (hplain : t.Plain) : t.text ≠ [] := by
  intro hnil
  have hword := ofWord?_text ht hplain
  rw [hnil] at hword
  exact absurd hword (by rw [show ofWord? [] = none by decide]; simp)

lemma apart_text {t : Token} (ht : t.isWord = false) (cs : List Char) :
    Scan.Apart (t.text ++ cs) := by
  have hhead : ∃ c rest, t.text = c :: rest ∧ Scan.isWord c = false := by
    cases t with
    | str s =>
      cases s with
      | text s => exact ⟨'"', _, rfl, by decide⟩
      | unpaired => exact ⟨'"', _, Scan.quoted_unpaired, by decide⟩
    | null | bool | num => simp [isWord] at ht
    | _ => exact ⟨_, _, rfl, by decide⟩
  obtain ⟨c, rest, htext, hc⟩ := hhead
  simpa [Scan.Apart, htext] using hc

lemma scan_text {t : Token} (ht : t.isWord = false) (out : List Token) (cs : List Char) :
    Scan.scan out (t.text ++ cs) = Scan.scan (t :: out) cs := by
  cases t with
  | str s => exact congrArg (Option.bind · Scan.St.tokens?) (Scan.run_quoted s out cs)
  | null | bool | num => simp [isWord] at ht
  | _ => rfl

end Token

/-- No two words stand side by side. -/
def Fenced (ts : List Token) : Prop :=
  ts.IsChain fun t u => t.isWord = false ∨ u.isWord = false

lemma Spaced.apart {cs : List Char} {ts : List Token} (h : Spaced cs ts)
    (hts : ∀ t ∈ ts.head?, t.isWord = false) : Scan.Apart cs := by
  cases h with
  | nil => simp [Scan.Apart]
  | blank hc _ => rcases hc with rfl | rfl <;> simp [Scan.Apart, Scan.isWord]
  | token t _ => exact Token.apart_text (hts t rfl) _

/-- **Scanning**: the tokens are found in spaced text. -/
theorem scan_spaced {cs : List Char} {ts : List Token} (h : Spaced cs ts) (hfenced : Fenced ts)
    (hplain : ∀ t ∈ ts, t.Plain) (out : List Token) :
    Scan.scan out cs = some (out.reverse ++ ts) := by
  induction h generalizing out with
  | nil => simp [Scan.scan, Scan.St.tokens?]
  | @blank c cs ts hc _ ih =>
    have hgap : Scan.scan out (c :: cs) = Scan.scan out cs := by
      rcases hc with rfl | rfl <;> rfl
    rw [hgap, ih hfenced hplain]
  | @token t cs ts hspaced ih =>
    obtain ⟨hnext, hfenced⟩ := List.isChain_cons.mp hfenced
    have hrest := ih hfenced (fun u hu => hplain u (by simp [hu])) (t :: out)
    have hstep : Scan.scan out (t.text ++ cs) = Scan.scan (t :: out) cs := by
      cases ht : t.isWord with
      | false => exact Token.scan_text ht out cs
      | true =>
        have htplain := hplain t (by simp)
        have hapart := hspaced.apart fun u hu => (hnext u hu).resolve_left (by simp [ht])
        exact Scan.scan_word (Token.text_ne_nil ht htplain) (Token.isWord_of_mem_text ht) hapart
          (Token.ofWord?_text ht htplain) out
    rw [hstep, hrest]
    simp

end QCircuit.Json
