import HookPatch.Json.Token

namespace HookPatch.Json

/-- An open array or object, with what stands before the value being read, in reverse. -/
inductive Frame
  | array (before : List Json)
  | object (before : List (Option String × Json)) (key : Option String)

inductive State
  | value (stack : List Frame)
  | firstItem (stack : List Frame)
  | firstKey (stack : List Frame)
  | key (before : List (Option String × Json)) (stack : List Frame)
  | colon (before : List (Option String × Json)) (key : Option String) (stack : List Frame)
  | complete (value : Json) (stack : List Frame)

def begin (stack : List Frame) : Token → Option State
  | .scalar j => some (.complete j stack)
  | .beginArray => some (.firstItem stack)
  | .beginObject => some (.firstKey stack)
  | _ => none

def State.step : State → Token → Option State
  | value stack, t => begin stack t
  | firstItem stack, .endArray => some (complete (.array []) stack)
  | firstItem stack, t => begin (.array [] :: stack) t
  | firstKey stack, .endObject => some (complete (.object []) stack)
  | firstKey stack, .scalar (.string k) => some (colon [] k stack)
  | key before stack, .scalar (.string k) => some (colon before k stack)
  | colon before k stack, .colon => some (value (.object before k :: stack))
  | complete j (.array before :: stack), .comma => some (value (.array (j :: before) :: stack))
  | complete j (.array before :: stack), .endArray =>
    some (complete (.array (j :: before).reverse) stack)
  | complete j (.object before k :: stack), .comma => some (key ((k, j) :: before) stack)
  | complete j (.object before k :: stack), .endObject =>
    some (complete (.object ((k, j) :: before).reverse) stack)
  | _, _ => none

def State.run (s : State) : List Token → Option State
  | [] => some s
  | t :: rest =>
    match s.step t with
    | none => none
    | some s => s.run rest

def ofTokens? (tokens : List Token) : Option Json :=
  match (State.value []).run tokens with
  | some (.complete j []) => some j
  | _ => none

def ofGlyphs? (s : List Glyph) : Option Json := (tokens? s).bind ofTokens?

def ofText? (s : String) : Option Json := ofGlyphs? (glyphsOfText s)

def ofBytes? (bytes : ByteArray) : Option Json := ofGlyphs? (glyphsOfBytes bytes)

end HookPatch.Json
