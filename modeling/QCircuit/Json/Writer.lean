import QCircuit.Json.Token

/-!
JSON values as text: on one line without blanks, or indented by two.
-/

namespace QCircuit.Json.Value

mutual

def tokens : Value → List Token
  | .null => [.null]
  | .bool b => [.bool b]
  | .num n => [.num n]
  | .str s => [.str s]
  | .arr [] => [.openArr, .closeArr]
  | .arr (v :: vs) => .openArr :: tokens v ++ itemTokens vs ++ [.closeArr]
  | .obj [] => [.openObj, .closeObj]
  | .obj ((k, v) :: fs) =>
    .openObj :: .str k :: .colon :: tokens v ++ fieldTokens fs ++ [.closeObj]

def itemTokens : List Value → List Token
  | [] => []
  | v :: vs => .comma :: tokens v ++ itemTokens vs

def fieldTokens : List (Str × Value) → List Token
  | [] => []
  | (k, v) :: fs => .comma :: .str k :: .colon :: tokens v ++ fieldTokens fs

end

def compact (v : Value) : String := String.ofList (v.tokens.flatMap Token.text)

/-- A new line at the given depth. -/
def newline (depth : Nat) : List Char := '\n' :: List.replicate (2 * depth) ' '

mutual

def layout (depth : Nat) : Value → List Char
  | .arr (v :: vs) =>
    '[' :: newline (depth + 1) ++ layout (depth + 1) v ++ itemLayout (depth + 1) vs ++
      newline depth ++ [']']
  | .obj ((k, v) :: fs) =>
    '\x7b' :: newline (depth + 1) ++ k.quoted ++ [':', ' '] ++ layout (depth + 1) v ++
      fieldLayout (depth + 1) fs ++ newline depth ++ ['\x7d']
  | v => v.tokens.flatMap Token.text

def itemLayout (depth : Nat) : List Value → List Char
  | [] => []
  | v :: vs => ',' :: newline depth ++ layout depth v ++ itemLayout depth vs

def fieldLayout (depth : Nat) : List (Str × Value) → List Char
  | [] => []
  | (k, v) :: fs =>
    ',' :: newline depth ++ k.quoted ++ [':', ' '] ++ layout depth v ++ fieldLayout depth fs

end

def pretty (v : Value) : String := String.ofList (v.layout 0)

end QCircuit.Json.Value
