import QCircuit.Json.Scan

/-!
JSON values from tokens.

A stack of open arrays and objects takes the tokens one by one, so depth costs no recursion.
-/

namespace QCircuit.Json.Reader

/-- An array or object that is still open, its finished parts last one first. -/
inductive Frame where
  | arr (rev : List Value)
  | obj (rev : List (Str × Value)) (key : Str)

/-- What may come next. -/
inductive St where
  /-- A value. -/
  | value (fs : List Frame)
  /-- The first item of an array, or its end. -/
  | items (fs : List Frame)
  /-- The first key of an object, or its end. -/
  | fields (fs : List Frame)
  /-- A further key. -/
  | key (rev : List (Str × Value)) (fs : List Frame)
  | colon (rev : List (Str × Value)) (key : Str) (fs : List Frame)
  /-- A comma or the end of what holds `v`. -/
  | after (v : Value) (fs : List Frame)

def scalar? : Token → Option Value
  | .null => some .null
  | .bool b => some (.bool b)
  | .num n => some (.num n)
  | .str s => some (.str s)
  | _ => none

def begin (fs : List Frame) : Token → Option St
  | .openArr => some (.items fs)
  | .openObj => some (.fields fs)
  | t => (scalar? t).map (.after · fs)

def step : St → Token → Option St
  | .value fs, t => begin fs t
  | .items fs, .closeArr => some (.after (.arr []) fs)
  | .items fs, t => begin (.arr [] :: fs) t
  | .fields fs, .closeObj => some (.after (.obj []) fs)
  | .fields fs, .str k => some (.colon [] k fs)
  | .key rev fs, .str k => some (.colon rev k fs)
  | .colon rev k fs, .colon => some (.value (.obj rev k :: fs))
  | .after v (.arr rev :: fs), .comma => some (.value (.arr (v :: rev) :: fs))
  | .after v (.arr rev :: fs), .closeArr => some (.after (.arr (v :: rev).reverse) fs)
  | .after v (.obj rev k :: fs), .comma => some (.key ((k, v) :: rev) fs)
  | .after v (.obj rev k :: fs), .closeObj => some (.after (.obj ((k, v) :: rev).reverse) fs)
  | _, _ => none

def run (s : St) (ts : List Token) : Option St := ts.foldlM step s

def St.done? : St → Option Value
  | .after v [] => some v
  | _ => none

@[simp] theorem run_nil (s : St) : run s [] = some s := rfl

@[simp] theorem run_cons (s : St) (t : Token) (ts : List Token) :
    run s (t :: ts) = (step s t).bind fun s' => run s' ts := rfl

theorem run_append (s : St) (as bs : List Token) :
    run s (as ++ bs) = (run s as).bind fun s' => run s' bs := by
  simp [run, List.foldlM_append]

end QCircuit.Json.Reader

namespace QCircuit.Json

/-- The one value that a text holds. -/
def parse? (s : String) : Option Value := do
  let ts ← Scan.tokens? s.toList
  let st ← Reader.run (.value []) ts
  st.done?

end QCircuit.Json
