import QCircuit.Json.Writer
import QCircuit.Tally

/-!
Results for the reader: a table with bars, or one JSON object.
-/

namespace QCircuit.Tally

open Json (Value)

/-- How many rows a table shows. -/
def shownRows : Nat := 16

/-- Blanks before a text until it has the given length. -/
def alignRight (width : Nat) (s : String) : String :=
  String.ofList (List.replicate (width - s.length) ' ') ++ s

/-- The counts, greatest first, and by key where they are equal. -/
def ranked (t : Tally) : List (String × Nat) :=
  t.counts.mergeSort fun a b => b.2 < a.2 || (a.2 == b.2 && decide (a.1 ≤ b.1))

/-- One block for each two percent, a half rounded up. -/
def bar (percent : Float) : String :=
  String.ofList (List.replicate (percent / 2.0).round.toUInt64.toNat '█')

def row (t : Tally) (key : String) (count : Nat) : String :=
  let percent := (t.probabilities.lookup key).getD 0.0 * 100.0
  "  " ++ key ++ ": " ++ alignRight 6 (toString count) ++
    " (" ++ alignRight 5 (String.ofList (Binary64.fixed 2 percent)) ++ "%) " ++ bar percent

def table (t : Tally) : List String :=
  let rows := t.ranked
  ["", s!"✓ Results ({t.shots} shots):"] ++
    (rows.take shownRows).map (fun (key, count) => t.row key count) ++
    (if shownRows < rows.length then
      [s!"  ... and {rows.length - shownRows} more outcomes"]
    else [])

def toJson (t : Tally) (milliseconds : Nat) : Value :=
  Value.record [("shots", Value.nat t.shots),
    ("probabilities", Value.record (t.probabilities.map fun (k, p) => (k, Value.float p))),
    ("counts", Value.record (t.counts.map fun (k, n) => (k, Value.nat n))),
    ("execution_time_ms", Value.nat milliseconds)]

end QCircuit.Tally
