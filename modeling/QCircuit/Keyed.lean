/-!
Tables sorted by key.
-/

namespace QCircuit

/-- Pairs of a key and a value, the keys ascending. -/
abbrev Keyed (κ α : Type) := List (κ × α)

namespace Keyed

variable {κ α : Type} [LT κ] [DecidableLT κ] [DecidableEq κ]

/-- Sets the value of a key from the one it had. -/
def alter (k : κ) (f : Option α → α) : Keyed κ α → Keyed κ α
  | [] => [(k, f none)]
  | (j, x) :: rest =>
    if k < j then (k, f none) :: (j, x) :: rest
    else if k = j then (k, f (some x)) :: rest
    else (j, x) :: alter k f rest

def insert (k : κ) (x : α) (t : Keyed κ α) : Keyed κ α := alter k (fun _ => x) t

/-- The table of some pairs; of one key the last value stays. -/
def ofList (ps : List (κ × α)) : Keyed κ α := ps.foldl (fun t (k, x) => insert k x t) []

end Keyed
end QCircuit
