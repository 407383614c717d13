import HookPatch.Json.Value
import HookPatch.Text.Digit

namespace HookPatch.Json

open Text

inductive Token
  | beginArray
  | endArray
  | beginObject
  | endObject
  | colon
  | comma
  | scalar (value : Json)

/-- A character, or a byte outside all characters. -/
abbrev Glyph := Option Char

structure Content where
  chars : List Char := []
  high : Option Nat := none
  sound : Bool := true

def Content.push (s : Content) (c : Char) : Content :=
  { chars := c :: s.chars, high := none, sound := s.sound && s.high.isNone }

def Content.garble (s : Content) : Content := { s with high := none, sound := false }

def Content.pushUnit (s : Content) (n : Nat) : Content :=
  match s.high with
  | some h =>
    if 0xDC00 ≤ n ∧ n < 0xE000 then
      let c := Char.ofNat (0x10000 + (h - 0xD800) * 0x400 + (n - 0xDC00))
      { s with chars := c :: s.chars, high := none }
    else s.garble
  | none =>
    if 0xD800 ≤ n ∧ n < 0xDC00 then { s with high := some n }
    else if 0xDC00 ≤ n ∧ n < 0xE000 then s.garble
    else s.push (Char.ofNat n)

def Content.text? (s : Content) : Option String :=
  if s.sound && s.high.isNone then some (String.ofList s.chars.reverse) else none

def fraction? (s : List Char) : Option (Option (List Char) × List Char) :=
  match s with
  | '.' :: s =>
    let digits := s.takeWhile Char.isDigit
    if digits.isEmpty then none else some (some digits, s.dropWhile Char.isDigit)
  | _ => some (none, s)

def exponent? (s : List Char) : Option (Option Int) :=
  match s with
  | [] => some none
  | e :: s =>
    let (sign, digits) : Int × List Char :=
      match s with
      | '-' :: s => (-1, s)
      | '+' :: s => (1, s)
      | _ => (1, s)
    if (e = 'e' || e = 'E') && !digits.isEmpty && digits.all Char.isDigit then
      some (some (sign * numberOf 10 digits))
    else none

/-- Reads a number: an optional minus, digits without superfluous zeros, an optional fraction and an
optional exponent. -/
def number? (s : List Char) : Option Json := do
  let (negative, s) :=
    match s with
    | '-' :: s => (true, s)
    | _ => (false, s)
  let whole := s.takeWhile Char.isDigit
  guard (!whole.isEmpty && (whole.head? ≠ some '0' || whole.length = 1))
  let (fraction, s) ← fraction? (s.dropWhile Char.isDigit)
  let exponent ← exponent? s
  let size := numberOf 10 whole
  if fraction.isNone && exponent.isNone && !(negative && size = 0) then
    return .integer (if negative then -size else size)
  else
    let digits := fraction.getD []
    return .decimal ⟨negative, numberOf 10 (whole ++ digits), exponent.getD 0 - digits.length⟩

inductive Mode
  | blank
  | word (next : Char) (rest : List Char) (value : Json)
  | number (held : List Char)
  | literal (s : Content)
  | escape (s : Content)
  /-- In a literal, before the last `left + 1` hexadecimal digits of a code unit. -/
  | unit (s : Content) (left : Nat) (n : Nat)

def isNumberChar (c : Char) : Bool :=
  c.isDigit || c = '-' || c = '+' || c = '.' || c = 'e' || c = 'E'

def start (c : Char) : Option (Mode × List Token) :=
  if c = ' ' || c = '\t' || c = '\n' || c = '\r' then some (.blank, [])
  else if c = '[' then some (.blank, [.beginArray])
  else if c = ']' then some (.blank, [.endArray])
  else if c = '{' then some (.blank, [.beginObject])
  else if c = '}' then some (.blank, [.endObject])
  else if c = ':' then some (.blank, [.colon])
  else if c = ',' then some (.blank, [.comma])
  else if c = '"' then some (.literal {}, [])
  else if c = 'n' then some (.word 'u' ['l', 'l'] .null, [])
  else if c = 't' then some (.word 'r' ['u', 'e'] (.bool true), [])
  else if c = 'f' then some (.word 'a' ['l', 's', 'e'] (.bool false), [])
  else if c = '-' || c.isDigit then some (.number [c], [])
  else none

def escaped (s : Content) (c : Char) : Option Mode :=
  if c = '"' || c = '\\' || c = '/' then some (.literal (s.push c))
  else if c = 'b' then some (.literal (s.push '\x08'))
  else if c = 'f' then some (.literal (s.push '\x0c'))
  else if c = 'n' then some (.literal (s.push '\n'))
  else if c = 'r' then some (.literal (s.push '\r'))
  else if c = 't' then some (.literal (s.push '\t'))
  else if c = 'u' then some (.unit s 3 0)
  else none

/-- Reads one glyph and gives the tokens that end before or with it. -/
def Mode.step : Mode → Glyph → Option (Mode × List Token)
  | blank, g => g.bind start
  | word next rest value, g =>
    if g = some next then
      match rest with
      | [] => some (blank, [.scalar value])
      | c :: rest => some (word c rest value, [])
    else none
  | number held, some c =>
    if isNumberChar c then some (number (c :: held), [])
    else do
      let value ← number? held.reverse
      let (mode, tokens) ← start c
      return (mode, .scalar value :: tokens)
  | number _, none => none
  | literal s, none => some (literal s.garble, [])
  | literal s, some c =>
    if c = '"' then some (blank, [.scalar (.string s.text?)])
    else if c = '\\' then some (escape s, [])
    else if c.toNat < 0x20 then none
    else some (literal (s.push c), [])
  | escape s, g => g.bind fun c ↦ (escaped s c).map (·, [])
  | unit s left n, g => do
    let n := 16 * n + (← hexDigit? (← g))
    match left with
    | 0 => return (literal (s.pushUnit n), [])
    | left + 1 => return (unit s left n, [])

def Mode.finish : Mode → Option (List Token)
  | blank => some []
  | number held => (number? held.reverse).map fun value ↦ [.scalar value]
  | _ => none

def tokensFrom (mode : Mode) (done : List Token) : List Glyph → Option (List Token)
  | [] => mode.finish.map fun tokens ↦ done.reverse ++ tokens
  | g :: rest =>
    match mode.step g with
    | none => none
    | some (mode, tokens) => tokensFrom mode (tokens.reverse ++ done) rest

def tokens? (s : List Glyph) : Option (List Token) := tokensFrom .blank [] s

def firstChar? (bytes : List UInt8) : Option (Char × Nat) :=
  [1, 2, 3, 4].findSome? fun n ↦
    match (String.fromUTF8? ⟨(bytes.take n).toArray⟩).map String.toList with
    | some [c] => some (c, n)
    | _ => none

def glyphsFrom : Nat → List UInt8 → List Glyph
  | _, [] => []
  | skip + 1, _ :: rest => glyphsFrom skip rest
  | 0, b :: rest =>
    match firstChar? (b :: rest) with
    | some (c, n) => some c :: glyphsFrom (n - 1) rest
    | none => none :: glyphsFrom 0 rest

def glyphsOfText (s : String) : List Glyph := s.toList.map some

def glyphsOfBytes (bytes : ByteArray) : List Glyph :=
  match String.fromUTF8? bytes with
  | some s => glyphsOfText s
  | none => glyphsFrom 0 bytes.data.toList

end HookPatch.Json
