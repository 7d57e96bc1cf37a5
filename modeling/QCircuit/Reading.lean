import QCircuit.Tally

/-!
Readings: keys drawn by rejection from a source of 64-bit words.

An attempt draws a bit string uniformly and accepts it if a number drawn from `[0, 1)` is at most
its probability. A string that is no key has probability zero.
-/

namespace QCircuit.Reading

variable {σ : Type}

/-- A source of words: the next word, and the source after it. -/
abbrev Source (σ : Type) := σ → UInt64 × σ

/-- A number below `2 ^ width`, uniformly: the high half of the product of a word and the bound,
drawn again until the low half is in the lower half of the words. At most `tries` words are
drawn. -/
def below (next : Source σ) (width : Nat) : (tries : Nat) → σ → Option (Nat × σ)
  | 0, _ => none
  | tries + 1, s =>
    let (word, s) := next s
    let product := word.toNat <<< width
    let words := 18446744073709551616
    if product % words < words / 2 then some (product / words, s) else below next width tries s

/-- A double in `[0, 1)` from the high 53 bits of a word. -/
def fraction (word : UInt64) : Float := (word.toNat / 2048).toFloat / 9007199254740992.0

def bits (width index : Nat) : String :=
  String.ofList ((List.range width).map fun j => if index.testBit (width - 1 - j) then '1' else '0')

/-- The first accepted string among the given number of attempts. -/
def attempt (next : Source σ) (tries : Nat) (probabilities : Keyed String Float) (width : Nat) :
    (attempts : Nat) → σ → Option String × σ
  | 0, s => (none, s)
  | attempts + 1, s =>
    match below next width tries s with
    | none => (none, s)
    | some (index, s) =>
      let key := bits width index
      let (word, s) := next s
      if fraction word ≤ (probabilities.lookup key).getD 0.0 then (some key, s)
      else attempt next tries probabilities width attempts s

def attempts : Nat := 1024

/-- One reading; when all attempts fail, or the keys are too long to draw, the first key. A single
bit string may take up to `tries` words. -/
def draw (next : Source σ) (tries : Nat) (probabilities : Keyed String Float) (s : σ) :
    Option String × σ :=
  match probabilities with
  | [] => (none, s)
  | (first, _) :: _ =>
    if first.utf8ByteSize < 64 then
      let (key, s) := attempt next tries probabilities first.utf8ByteSize attempts s
      (some (key.getD first), s)
    else (some first, s)

end QCircuit.Reading
