import QCircuit.Bit
import QCircuit.Text

/-!
Registers and the dense numbering of their bits.

A register declares the bits from `start` on. Bit ids are 32-bit words; the last id a register
can list is the one before the greatest word. Compiling numbers the declared bits in the order in
which it meets them.
-/

namespace QCircuit

structure Register where
  kind : BitKind
  start : Nat
  count : Nat
  deriving DecidableEq, Repr

namespace Register

def name (r : Register) : String := String.singleton r.kind.letter ++ s!"{r.start}_{r.count}"

/-- The register of this name: a letter, the start, a bar, the count. -/
def parse? (name : String) : Option Register := do
  let c :: cs := name.toList | none
  let kind ← if c = 'q' then some BitKind.qubit else if c = 'c' then some .clbit else none
  let start := cs.takeWhile (· ≠ '_')
  let _ :: count := cs.dropWhile (· ≠ '_') | none
  return ⟨kind, ← Text.number? 4294967296 (String.ofList start),
    ← Text.number? 4294967296 (String.ofList count)⟩

/-- The id of bit number `i`. Behind the last 32-bit word ids start again at 0; arithmetic that is
checked stops there. -/
def bit (r : Register) (i : Nat) : Nat := (r.start + i) % 4294967296

theorem bit_eq {r : Register} {i : Nat} (h : r.start + i < 4294967296) : r.bit i = r.start + i :=
  Nat.mod_eq_of_lt h

/-- The ids that a register lists. -/
def bits (r : Register) : List Nat :=
  List.range' r.start (min (r.start + r.count) 4294967295 - r.start)

/-- Whether the bit is one of the register's. -/
def declares (r : Register) (bit : Nat) : Bool :=
  r.start ≤ bit && bit < min (r.start + r.count) 4294967295

end Register

/-- Dense indices of bits, the latest declaration first. -/
structure DenseMap where
  entries : List (Nat × Nat) := []
  size : Nat := 0
  deriving DecidableEq, Repr

namespace DenseMap

def push (m : DenseMap) (bit : Nat) : DenseMap := ⟨(bit, m.size) :: m.entries, m.size + 1⟩

/-- Gives the next indices to the bits of a register. -/
def declare (m : DenseMap) (r : Register) : DenseMap := r.bits.foldl push m

def get? (m : DenseMap) (bit : Nat) : Option Nat := m.entries.lookup bit

end DenseMap
end QCircuit
