import QCircuit.Options
import QCircuit.Text

/-!
The arguments of the program.

A command may follow options of the program itself; each level knows its own options. An option
is named in full or by one letter; letters may share an argument, and a value may be attached or
stand in the argument after. Two dashes alone end the options.
-/

namespace QCircuit.CommandLine

/-- Where in the command line an argument stands. -/
inductive Level where
  | program
  | compile
  | run
  | version
  deriving DecidableEq, Repr

/-- What an option sets. -/
inductive Key where
  | verbose
  | help
  | about
  | input
  | output
  | shots
  | retained
  | parallel
  | printCircuit
  | format
  deriving DecidableEq, Repr

def Key.letter? : Key → Option Char
  | .verbose => some 'v'
  | .help => some 'h'
  | .about => some 'V'
  | .input => some 'i'
  | .output => some 'o'
  | .shots => some 's'
  | .format => some 'f'
  | .retained | .parallel | .printCircuit => none

def Key.name : Key → String
  | .verbose => "verbose"
  | .help => "help"
  | .about => "version"
  | .input => "input"
  | .output => "output"
  | .shots => "shots"
  | .retained => "mqubits"
  | .parallel => "parallel"
  | .printCircuit => "print-circuit"
  | .format => "format"

/-- Whether the option has a value. -/
def Key.isValued : Key → Bool
  | .input | .output | .shots | .retained | .format => true
  | .verbose | .help | .about | .parallel | .printCircuit => false

/-- The options of a level. -/
def Level.keys : Level → List Key
  | .program => [.verbose, .help, .about]
  | .compile => [.input, .verbose, .output, .help]
  | .run => [.input, .verbose, .shots, .retained, .parallel, .printCircuit, .format, .help]
  | .version => [.verbose, .help]

/-- A page of help: a level's, or the one on help itself. -/
inductive Page where
  | level (l : Level)
  | help
  deriving DecidableEq, Repr

/-- The arguments ask for nothing to be done. -/
inductive Stop where
  | misuse
  | help (page : Page)
  | about
  deriving DecidableEq, Repr

structure RunArguments where
  input : String
  format : String
  options : Options
  deriving DecidableEq, Repr

inductive Command where
  | compile (input : String) (output : Option String)
  | run (arguments : RunArguments)
  | version
  deriving DecidableEq, Repr

/-- What the options of one level have set so far. -/
structure Settings where
  verbose : Nat := 0
  input : Option String := none
  output : Option String := none
  shots : Option Nat := none
  retained : List Nat := []
  parallel : Bool := false
  printCircuit : Bool := false
  format : Option String := none
  deriving DecidableEq, Repr

/-- A number of shots: a 32-bit word, with a sign or without. -/
def shots? (s : String) : Option Nat :=
  match s.toList with
  | '-' :: cs => Text.digits? 1 cs
  | _ => Text.number? 4294967296 s

/-- Numbers of qubits between commas. -/
def qubits? (s : String) : Option (List Nat) :=
  ((s.toList.splitOn ',').map String.ofList).mapM (Text.number? 18446744073709551616)

/-- A setting that may be made once. -/
def once {α : Type} (old : Option α) (new : Option α) : Except Stop (Option α) :=
  match old, new with
  | none, some a => .ok (some a)
  | _, _ => .error .misuse

/-- Applies an option; one without a value comes with an empty text. -/
def Settings.set (s : Settings) (level : Level) (value : String) : Key → Except Stop Settings
  | .verbose => .ok { s with verbose := s.verbose + 1 }
  | .help => .error (.help (.level level))
  | .about => .error .about
  | .input => do return { s with input := ← once s.input (some value) }
  | .output => do return { s with output := ← once s.output (some value) }
  | .shots => do return { s with shots := ← once s.shots (shots? value) }
  | .retained =>
    match qubits? value with
    | some qs => .ok { s with retained := s.retained ++ qs }
    | none => .error .misuse
  | .parallel => if s.parallel then .error .misuse else .ok { s with parallel := true }
  | .printCircuit => if s.printCircuit then .error .misuse else .ok { s with printCircuit := true }
  | .format => do return { s with format := ← once s.format (some value) }

/-- The state between two arguments. -/
inductive St where
  /-- Options of a level, and a command at the level of the program. `outer` is how often
  the program's own options asked for more output. -/
  | options (level : Level) (outer : Nat) (settings : Settings)
  /-- An option waits for its value. -/
  | value (level : Level) (outer : Nat) (settings : Settings) (key : Key)
  /-- Two dashes have ended the options. -/
  | ended (level : Level) (outer : Nat) (settings : Settings)
  /-- Help is asked on a page. -/
  | help (page : Page)
  deriving DecidableEq, Repr

/-- An option named in full, with or without a value attached. -/
def long (level : Level) (outer : Nat) (s : Settings) (cs : List Char) : Except Stop St :=
  let name := String.ofList (cs.takeWhile (· ≠ '='))
  let rest := cs.dropWhile (· ≠ '=')
  match level.keys.find? (·.name = name) with
  | none => .error .misuse
  | some key =>
    match key.isValued, rest with
    | true, [] => .ok (.value level outer s key)
    | true, _ :: value => (s.set level (String.ofList value) key).map (.options level outer)
    | false, [] => (s.set level "" key).map (.options level outer)
    | false, _ => .error .misuse

/-- The letters of one argument. The rest after an option with a value is that value, an equals
sign before it dropped. -/
def letters (level : Level) (outer : Nat) (s : Settings) : List Char → Except Stop St
  | [] => .ok (.options level outer s)
  | c :: rest =>
    match level.keys.find? (·.letter? = some c) with
    | none => .error .misuse
    | some key =>
      if key.isValued then
        match rest with
        | [] => .ok (.value level outer s key)
        | '=' :: value => (s.set level (String.ofList value) key).map (.options level outer)
        | value => (s.set level (String.ofList value) key).map (.options level outer)
      else do letters level outer (← s.set level "" key) rest

/-- The level that a command opens. -/
def Level.ofName? (name : String) : Option Level :=
  if name = "compile" then some .compile
  else if name = "run" then some .run
  else if name = "version" then some .version
  else none

/-- The page that a name opens on a page. -/
def Page.open? : Page → String → Option Page
  | .level .program, name => if name = "help" then some .help else (Level.ofName? name).map .level
  | _, _ => none

def step : St → String → Except Stop St
  | .help page, arg =>
    match page.open? arg with
    | some p => .ok (.help p)
    | none => .error .misuse
  | .ended .., _ => .error .misuse
  | .value level outer s key, arg =>
    match arg.toList with
    | '-' :: _ :: _ => .error .misuse
    | _ => (s.set level arg key).map (.options level outer)
  | .options level outer s, arg =>
    match arg.toList with
    | ['-', '-'] => .ok (.ended level outer s)
    | '-' :: '-' :: cs => long level outer s cs
    | '-' :: c :: cs => letters level outer s (c :: cs)
    | _ =>
      match level, Level.ofName? arg with
      | .program, some l => .ok (.options l s.verbose {})
      | .program, none => if arg = "help" then .ok (.help (.level .program)) else .error .misuse
      | _, _ => .error .misuse

/-- What the settings of a level ask for. The command's own count of `verbose` goes before the
program's. -/
def Settings.finish (s : Settings) (level : Level) (outer : Nat) : Except Stop Command :=
  match level, s.input with
  | .compile, some input => .ok (.compile input s.output)
  | .run, some input => .ok (.run {
      input
      format := s.format.getD "table"
      options := {
        shots := s.shots.getD 1024
        retained := Options.setOf s.retained
        printCircuit := s.printCircuit
        verbose := 2 ≤ if s.verbose = 0 then outer else s.verbose
        parallel := s.parallel } })
  | .version, _ => .ok .version
  | _, _ => .error .misuse

def St.finish : St → Except Stop Command
  | .options level outer s => s.finish level outer
  | .ended level outer s => s.finish level outer
  | .value .. => .error .misuse
  | .help page => .error (.help page)

/-- The command that the arguments give. -/
def parse (args : List String) : Except Stop Command := do
  (← args.foldlM step (.options .program 0 {})).finish

end QCircuit.CommandLine
