import HookPatch.Json.Value

namespace HookPatch.Json

def escapeChar (c : Char) : List Char :=
  if c = '"' then ['\\', '"'] else if c = '\\' then ['\\', '\\']
  else if c = '\n' then ['\\', 'n'] else if c = '\r' then ['\\', 'r']
  else if c = '\t' then ['\\', 't'] else if c = '\x08' then ['\\', 'b']
  else if c = '\x0c' then ['\\', 'f']
  else if c.toNat < 0x20 then
    ['\\', 'u', '0', '0', Nat.digitChar (c.toNat / 16), Nat.digitChar (c.toNat % 16)]
  else [c]

/-- A string literal. What is not Unicode text is written as a lone surrogate. -/
def literal : Option String → String
  | some s => "\"" ++ String.ofList (s.toList.flatMap escapeChar) ++ "\""
  | none => "\"\\ud800\""

def decimalLiteral (d : Decimal) : String :=
  (if d.negative then "-" else "") ++ toString d.digits ++ "e" ++ toString d.exponent

mutual

def compact : Json → String
  | null => "null"
  | bool b => if b then "true" else "false"
  | integer n => toString n
  | decimal d => decimalLiteral d
  | string s => literal s
  | array items => "[" ++ ",".intercalate (compactItems items) ++ "]"
  | object members => "\x7b" ++ ",".intercalate (compactMembers members) ++ "\x7d"

def compactItems : List Json → List String
  | [] => []
  | j :: rest => compact j :: compactItems rest

def compactMembers : List (Option String × Json) → List String
  | [] => []
  | (key, j) :: rest => (literal key ++ ":" ++ compact j) :: compactMembers rest

end

def newline (level : Nat) : String := "\n" ++ String.join (List.replicate level "  ")

def block (level : Nat) (opening closing : String) (items : List String) : String :=
  if items.isEmpty then opening ++ closing
  else
    opening ++ newline (level + 1) ++ ("," ++ newline (level + 1)).intercalate items ++
      newline level ++ closing

mutual

def indented (level : Nat) : Json → String
  | array items => block level "[" "]" (indentedItems (level + 1) items)
  | object members => block level "\x7b" "\x7d" (indentedMembers (level + 1) members)
  | null => "null"
  | bool b => if b then "true" else "false"
  | integer n => toString n
  | decimal d => decimalLiteral d
  | string s => literal s

def indentedItems (level : Nat) : List Json → List String
  | [] => []
  | j :: rest => indented level j :: indentedItems level rest

def indentedMembers (level : Nat) : List (Option String × Json) → List String
  | [] => []
  | (key, j) :: rest => (literal key ++ ": " ++ indented level j) :: indentedMembers level rest

end

def pretty (j : Json) : String := indented 0 j

end HookPatch.Json
