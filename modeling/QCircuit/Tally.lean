import QCircuit.Binary64
import QCircuit.Keyed
import QCircuit.Simulate.Branch

/-!
From probabilities to keyed distributions and shot counts.

A key spells the bits of the retained qubits, qubit 0 first. Counts start from the whole part of
each product of probability and shots; products that round up get one more while shots are left;
what remains is dealt in rounds.
-/

namespace QCircuit

/-- The key of a basis index of `n` qubits; with no qubit named, all are retained. -/
def basisKey (index n : Nat) (retained : List Nat) : String :=
  let kept := (List.range n).filter fun q => retained.isEmpty || retained.contains q
  String.ofList (kept.map fun q => if index.testBit (n - 1 - q) then '1' else '0')

/-- Adds the probability of a basis index to its key and to the sum; what is nothing is left out. -/
def packStep (n : Nat) (retained : List Nat) (s : Keyed String Float × Float) (x : Float × Nat) :
    Keyed String Float × Float :=
  if epsilon < x.1.abs then
    (s.1.alter (basisKey x.2 n retained) (fun p => p.getD 0.0 + x.1), s.2 + x.1)
  else s

/-- The last entry with its value changed. -/
def updateLast {κ α : Type} (f : α → α) : Keyed κ α → Keyed κ α
  | [] => []
  | [(k, x)] => [(k, f x)]
  | p :: q :: rest => p :: updateLast f (q :: rest)

/-- The probabilities of the retained bits. What is missing from a total of one goes to the
greatest key. -/
def pack (probabilities : List Float) (retained : List Nat) : Keyed String Float :=
  let n := probabilities.length.log2
  let (packed, sum) := probabilities.zipIdx.foldl (packStep n retained) ([], 0.0)
  if epsilon < (1.0 - sum).abs then updateLast (· + (1.0 - sum)) packed else packed

/-- What a key is owed: whole shots, and whether the rest of the product rounds up. -/
structure Quota where
  base : Nat
  roundsUp : Bool
  deriving DecidableEq, Repr

/-- The quota of a probability. The whole part is a 32-bit word. -/
def Quota.ofProbability (shots : Nat) (p : Float) : Quota :=
  let product := p * shots.toFloat
  ⟨if 0.0 < product then product.toUInt32.toNat else 0, product < Binary64.round product⟩

/-- One shot more for each key that rounds up, in order, while `left` lasts. -/
def roundUp {κ : Type} : (left : Nat) → Keyed κ Quota → Keyed κ Nat × Nat
  | left, [] => ([], left)
  | left, (k, q) :: rest =>
    let extra := if q.roundsUp then min left 1 else 0
    let (counts, left) := roundUp (left - extra) rest
    ((k, q.base + extra) :: counts, left)

/-- The share of the player at position `i` when `shots` are dealt in rounds to `players`. -/
def dealt (shots players i : Nat) : Nat :=
  shots / players + if i < shots % players then 1 else 0

/-- Deals shots in rounds to the keys that qualify; `i` of those came before. -/
def deal {κ : Type} (shots players : Nat) (qualifies : Nat → Bool) (i : Nat) :
    Keyed κ Nat → Keyed κ Nat
  | [] => []
  | (k, n) :: rest =>
    if qualifies n then (k, n + dealt shots players i) :: deal shots players qualifies (i + 1) rest
    else (k, n) :: deal shots players qualifies i rest

/-- The whole shots of all keys. -/
def assigned {κ : Type} : Keyed κ Quota → Nat
  | [] => 0
  | (_, q) :: rest => q.base + assigned rest

/-- Shots dealt over quotas; keys that get none are left out. -/
def apportion {κ : Type} (quotas : Keyed κ Quota) (shots : Nat) : Keyed κ Nat :=
  let (counts, left) := roundUp (shots - assigned quotas) quotas
  let counted := counts.countP (0 < ·.2)
  let full :=
    if counted = 0 then deal left counts.length (fun _ => true) 0 counts
    else deal left counted (0 < ·) 0 counts
  full.filter (0 < ·.2)

/-- A distribution over keys with its number of shots. -/
structure Tally where
  probabilities : Keyed String Float
  shots : Nat
  deriving Repr

namespace Tally

def counts (t : Tally) : Keyed String Nat :=
  apportion (t.probabilities.map fun (k, p) => (k, Quota.ofProbability t.shots p)) t.shots

/-- The key with the greatest count, of several the last. -/
def mostFrequent? (t : Tally) : Option (String × Nat) :=
  t.counts.foldl (fun best (k, n) =>
    match best with
    | some (j, m) => if m ≤ n then some (k, n) else some (j, m)
    | none => some (k, n)) none

end Tally
end QCircuit
