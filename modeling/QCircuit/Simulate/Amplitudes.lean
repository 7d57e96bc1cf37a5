/-!
Matrices on amplitude vectors.

Qubit `q` of `n` is bit `n - 1 - q` of a basis index, so qubit 0 is the most significant. A
matrix on `k` targets is applied in place to the groups of `2 ^ k` amplitudes that differ only in
the target bits. Nothing here depends on what the scalars are.
-/

namespace QCircuit

variable {α : Type} [Zero α] [One α] [Add α] [Mul α]

/-- Adds whole blocks of eight terms to eight running sums; the terms left over come with them. -/
def laneSums (lanes terms : List α) : List α × List α :=
  if 8 ≤ terms.length then laneSums (lanes.zipWith (· + ·) (terms.take 8)) (terms.drop 8)
  else (lanes, terms)
termination_by terms.length
decreasing_by simp only [List.length_drop]; omega

/-- The sum of a list: blocks of eight first, then the rest one by one. -/
def blockSum (terms : List α) : α :=
  let (lanes, rest) := laneSums (List.replicate 8 0) terms
  rest.foldl (· + ·) ((List.zipWith (· + ·) (lanes.take 4) (lanes.drop 4)).foldl (· + ·) 0)

def dot (row v : List α) : α := blockSum (row.zipWith (· * ·) v) * 1

abbrev Matrix (α : Type) := List (List α)

def Matrix.mulVec (m : Matrix α) (v : List α) : List α := m.map (dot · v)

/-- How many amplitudes a state on `n` qubits has: the 1 of a 64-bit word moved up by `n` places,
counted modulo 64. Arithmetic that is checked stops from 64 places on. -/
def stateSize (n : Nat) : Nat := 1 <<< (n % 64)

/-- The bit of a basis index that a qubit stands for. -/
def qubitMask (n q : Nat) : Nat := 1 <<< (n - 1 - q)

/-- The indices with only target bits set, in the order of the rows of a matrix: the first target
is the most significant. -/
def offsets (n : Nat) : (targets : List Nat) → List Nat
  | [] => [0]
  | q :: qs => offsets n qs ++ (offsets n qs).map (qubitMask n q ||| ·)

/-- The group of amplitudes around `base`. -/
def group (amps : Array α) (offs : List Nat) (base : Nat) : List α :=
  offs.map fun o => amps.getD (base ||| o) 0

def setGroup (amps : Array α) (offs : List Nat) (base : Nat) (values : List α) : Array α :=
  (offs.zip values).foldl (fun amps (o, x) => amps.setIfInBounds (base ||| o) x) amps

/-- Whether an index has no target bit set. -/
def isBase (n : Nat) (targets : List Nat) (index : Nat) : Bool :=
  targets.all fun q => index &&& qubitMask n q == 0

def applyMatrix (n : Nat) (targets : List Nat) (m : Matrix α) (amps : Array α) : Array α :=
  let offs := offsets n targets
  ((List.range amps.size).filter (isBase n targets)).foldl
    (fun amps base => setGroup amps offs base (m.mulVec (group amps offs base))) amps

/-- The identity of the given size. -/
def Matrix.identity (size : Nat) : Matrix α :=
  (List.range size).map fun i => (List.range size).map fun j => if i = j then 1 else 0

/-- `u` on the last qubits when all of `controls` leading ones are set, the identity otherwise. -/
def Matrix.controlled (u : Matrix α) (controls : Nat) : Matrix α :=
  let size := u.length <<< controls
  let offset := size - u.length
  (Matrix.identity size).take offset ++ u.map fun row => List.replicate offset 0 ++ row

end QCircuit
