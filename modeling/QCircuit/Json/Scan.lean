import QCircuit.Json.Token

/-!
JSON text as tokens, in one pass.

The scan stands between tokens, inside a word, or inside a string literal. A string is collected
as marks: characters that stand for themselves, and UTF-16 units given by escapes, which pair up
when the literal ends.
-/

namespace QCircuit.Json.Scan

/-- One piece of a string literal. -/
inductive Mark where
  | char (c : Char)
  | unit (n : Nat)
  deriving DecidableEq, Repr

def isHigh (n : Nat) : Bool := 0xD800 ≤ n && n < 0xDC00
def isLow (n : Nat) : Bool := 0xDC00 ≤ n && n < 0xE000

/-- The characters of a string literal; a surrogate without its partner has none. -/
def assemble : List Mark → Option (List Char)
  | [] => some []
  | .char c :: ms => (assemble ms).map (c :: ·)
  | .unit h :: .unit l :: ms =>
    if isHigh h then
      if isLow l then
        (assemble ms).map (Char.ofNat (0x10000 + (h - 0xD800) * 0x400 + (l - 0xDC00)) :: ·)
      else none
    else if isLow h then none
    else (assemble (.unit l :: ms)).map (Char.ofNat h :: ·)
  | .unit h :: ms =>
    if isHigh h || isLow h then none else (assemble ms).map (Char.ofNat h :: ·)

def finish (marks : List Mark) : Str :=
  match assemble marks with
  | some cs => .text (String.ofList cs)
  | none => .unpaired

inductive Mode where
  | gap
  | word (rev : List Char)
  | quoted (rev : List Mark)
  | escaped (rev : List Mark)
  | hex (rev : List Mark) (left : Nat) (n : Nat)
  deriving DecidableEq, Repr

structure St where
  mode : Mode
  /-- The tokens so far, last one first. -/
  out : List Token
  deriving DecidableEq, Repr

def init : St := ⟨.gap, []⟩

def isWord (c : Char) : Bool := c.isAlphanum || c == '-' || c == '+' || c == '.'

/-- A character between tokens. -/
def start (out : List Token) (c : Char) : Option St :=
  if c = ' ' ∨ c = '\n' ∨ c = '\t' ∨ c = '\r' then some ⟨.gap, out⟩
  else if c = '[' then some ⟨.gap, .openArr :: out⟩
  else if c = ']' then some ⟨.gap, .closeArr :: out⟩
  else if c = '\x7b' then some ⟨.gap, .openObj :: out⟩
  else if c = '\x7d' then some ⟨.gap, .closeObj :: out⟩
  else if c = ':' then some ⟨.gap, .colon :: out⟩
  else if c = ',' then some ⟨.gap, .comma :: out⟩
  else if c = '"' then some ⟨.quoted [], out⟩
  else if isWord c then some ⟨.word [c], out⟩
  else none

def unescape? (c : Char) : Option Char :=
  if c = '"' ∨ c = '\\' ∨ c = '/' then some c
  else if c = 'n' then some '\n'
  else if c = 'r' then some '\r'
  else if c = 't' then some '\t'
  else if c = 'b' then some '\x08'
  else if c = 'f' then some '\x0c'
  else none

def hexValue? (c : Char) : Option Nat :=
  if c.isDigit then some (c.toNat - '0'.toNat)
  else if 'a' ≤ c ∧ c ≤ 'f' then some (c.toNat - 'a'.toNat + 10)
  else if 'A' ≤ c ∧ c ≤ 'F' then some (c.toNat - 'A'.toNat + 10)
  else none

def step (s : St) (c : Char) : Option St :=
  match s.mode with
  | .gap => start s.out c
  | .word rev =>
    if isWord c then some { s with mode := .word (c :: rev) }
    else (Token.ofWord? rev.reverse).bind fun t => start (t :: s.out) c
  | .quoted rev =>
    if c = '"' then some ⟨.gap, .str (finish rev.reverse) :: s.out⟩
    else if c = '\\' then some { s with mode := .escaped rev }
    else if c.toNat < 0x20 then none
    else some { s with mode := .quoted (.char c :: rev) }
  | .escaped rev =>
    if c = 'u' then some { s with mode := .hex rev 4 0 }
    else (unescape? c).map fun d => { s with mode := .quoted (.char d :: rev) }
  | .hex rev left n =>
    (hexValue? c).map fun d =>
      if left ≤ 1 then { s with mode := .quoted (.unit (16 * n + d) :: rev) }
      else { s with mode := .hex rev (left - 1) (16 * n + d) }

def run (s : St) (cs : List Char) : Option St := cs.foldlM step s

/-- The tokens, once the text has ended. -/
def St.tokens? (s : St) : Option (List Token) :=
  match s.mode with
  | .gap => some s.out.reverse
  | .word rev => (Token.ofWord? rev.reverse).map fun t => (t :: s.out).reverse
  | _ => none

def tokens? (cs : List Char) : Option (List Token) := (run init cs).bind St.tokens?

@[simp] theorem run_nil (s : St) : run s [] = some s := rfl

@[simp] theorem run_cons (s : St) (c : Char) (cs : List Char) :
    run s (c :: cs) = (step s c).bind fun s' => run s' cs := rfl

theorem run_append (s : St) (as bs : List Char) :
    run s (as ++ bs) = (run s as).bind fun s' => run s' bs := by
  simp [run, List.foldlM_append]

end QCircuit.Json.Scan
