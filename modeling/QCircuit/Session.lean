/-!
A program's talk with the world as a value.

A session reads and writes files, prints lines and ends with an exit code; what it does next
depends on the answers alone. It can be played against a world of known files.
-/

namespace QCircuit

/-- What stands at a path. -/
inductive Entry where
  | missing
  | unreadable
  | text (s : String)
  deriving DecidableEq, Repr

inductive Session where
  | exit (code : Nat)
  | out (line : String) (next : Session)
  | err (line : String) (next : Session)
  | read (path : String) (next : Entry → Session)
  /-- The answer tells whether the file was written. -/
  | write (path text : String) (next : Bool → Session)
  /-- The answer is a time in milliseconds. -/
  | clock (next : Nat → Session)

namespace Session

def outs (lines : List String) (next : Session) : Session := lines.foldr .out next

def errs (lines : List String) (next : Session) : Session := lines.foldr .err next

/-- Ends with a message. -/
def fail (message : String) : Session := .err ("Error: " ++ message) (.exit 1)

/-- Files as they are found, and where files may be put. Its clock stands still. -/
structure World where
  files : String → Entry
  writable : String → Bool

/-- What a session leaves behind. -/
structure Transcript where
  out : List String := []
  err : List String := []
  written : List (String × String) := []
  code : Nat := 0
  deriving DecidableEq, Repr

def play (w : World) : Session → Transcript
  | .exit code => { code }
  | .out line next =>
    let t := play w next
    { t with out := line :: t.out }
  | .err line next =>
    let t := play w next
    { t with err := line :: t.err }
  | .read path next => play w (next (w.files path))
  | .write path text next =>
    if w.writable path then
      let t := play w (next true)
      { t with written := (path, text) :: t.written }
    else play w (next false)
  | .clock next => play w (next 0)

end Session
end QCircuit
