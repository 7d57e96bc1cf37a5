import QCircuit.CommandLine

/-!
The program: a session of the command line, held with the real world.
-/

namespace QCircuit

/-- What stands at a path. A path that goes through a file, or is too long, names nothing. -/
def Entry.find (path : String) : IO Entry := do
  try return .text (← IO.FS.readFile path)
  catch e =>
    match e with
    | .noFileOrDirectory .. => return .missing
    | .inappropriateType (some _) .. => return .missing
    | .invalidArgument (some _) .. => return .missing
    | _ => return .unreadable

/-- Holds a session; the result is the exit code. -/
def Session.hold : Session → IO UInt32
  | .exit code => return UInt32.ofNat code
  | .out line next => do
    IO.println line
    next.hold
  | .err line next => do
    IO.eprintln line
    next.hold
  | .read path next => do (next (← Entry.find path)).hold
  | .write path text next => do
    let done ← try
        IO.FS.writeFile path text
        pure true
      catch _ => pure false
    (next done).hold
  | .clock next => do (next (← IO.monoMsNow)).hold

end QCircuit

def main (args : List String) : IO UInt32 := (QCircuit.CommandLine.session args).hold
