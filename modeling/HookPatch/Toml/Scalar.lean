import HookPatch.Decimal
import HookPatch.Text.Digit
import HookPatch.Toml.Value

namespace HookPatch.Toml

def isWordChar (c : Char) : Bool :=
  c.isAlphanum || c = '+' || c = '-' || c = '_' || c = '.' || c = ':'

def isGroupChar (c : Char) : Bool := c.isDigit || c = '_'

def isGrouped (isDigit : Char → Bool) : List Char → Bool
  | [] => false
  | [c] => isDigit c
  | c :: '_' :: rest => isDigit c && isGrouped isDigit rest
  | c :: rest => isDigit c && isGrouped isDigit rest

def groupedValue (base : Nat) (s : List Char) : Nat := Text.numberOf base (s.filter (· ≠ '_'))

def splitSign (s : List Char) : Bool × List Char :=
  match s with
  | '-' :: s => (true, s)
  | '+' :: s => (false, s)
  | _ => (false, s)

def isWhole (s : List Char) : Bool :=
  isGrouped Char.isDigit s && (s.head? ≠ some '0' || s.length = 1)

def integerOf? (n : Int) : Option Toml :=
  if Int64.minValue.toInt ≤ n ∧ n ≤ Int64.maxValue.toInt then some (integer n) else none

def based? (base : Nat) (isDigit : Char → Bool) (s : List Char) : Option Toml :=
  if isGrouped isDigit s then integerOf? (groupedValue base s) else none

def integer? (s : List Char) : Option Toml :=
  match s with
  | '0' :: 'x' :: s => based? 16 Text.isHexDigit s
  | '0' :: 'o' :: s => based? 8 (fun c ↦ '0' ≤ c && c ≤ '7') s
  | '0' :: 'b' :: s => based? 2 (fun c ↦ c = '0' || c = '1') s
  | _ =>
    let (negative, size) := splitSign s
    let n : Int := groupedValue 10 size
    if isWhole size then integerOf? (if negative then -n else n) else none

def fraction? (s : List Char) : Option (List Char × Int) := do
  let (digits, s) :=
    match s with
    | '.' :: s => s.span isGroupChar
    | _ => ([], s)
  let plain := digits.filter (· ≠ '_')
  match s with
  | [] => if isGrouped Char.isDigit digits then some (plain, 0) else none
  | e :: s =>
    let (negative, size) := splitSign s
    let n : Int := groupedValue 10 size
    if (e = 'e' || e = 'E') && isGrouped Char.isDigit size then
      some (plain, if negative then -n else n)
    else none

/-- A number with a fraction or an exponent. A positive one has to fit a double. -/
def float? (s : List Char) : Option Toml := do
  let (negative, size) := splitSign s
  if size = "inf".toList || size = "nan".toList then return float
  let (whole, rest) := size.span isGroupChar
  guard (isWhole whole && !rest.isEmpty)
  guard (rest.head? ≠ some '.' || isGrouped Char.isDigit
    (rest.tail.takeWhile isGroupChar))
  let (digits, exponent) ← fraction? rest
  let value : Decimal :=
    ⟨negative, groupedValue 10 (whole ++ digits), exponent - digits.length⟩
  guard (negative || !value.overflows)
  return float

def pair? (a b : Char) : Option Nat :=
  if a.isDigit && b.isDigit then some (Text.numberOf 10 [a, b]) else none

def daysIn (year month : Nat) : Nat :=
  if month = 2 then
    if year % 4 = 0 && (year % 100 ≠ 0 || year % 400 = 0) then 29 else 28
  else if month = 4 || month = 6 || month = 9 || month = 11 then 30 else 31

def afterDate? (s : List Char) : Option (List Char) := do
  let y :: y' :: y'' :: y''' :: '-' :: m :: m' :: '-' :: d :: d' :: rest := s | none
  let year := 100 * (← pair? y y') + (← pair? y'' y''')
  let month ← pair? m m'
  let day ← pair? d d'
  guard (1 ≤ month && month ≤ 12 && 1 ≤ day && day ≤ daysIn year month)
  return rest

def afterTime? (s : List Char) : Option (List Char) := do
  let h :: h' :: ':' :: m :: m' :: ':' :: s :: s' :: rest := s | none
  guard ((← pair? h h') ≤ 23 && (← pair? m m') ≤ 59 && (← pair? s s') ≤ 60)
  match rest with
  | '.' :: rest =>
    guard (rest.head?.any Char.isDigit)
    return rest.dropWhile Char.isDigit
  | _ => return rest

def isOffset (s : List Char) : Bool :=
  match s with
  | ['Z'] => true
  | ['z'] => true
  | [sign, h, h', ':', m, m'] =>
    (sign = '+' || sign = '-') && (pair? h h').any (· ≤ 23) && (pair? m m').any (· ≤ 59)
  | _ => false

def isZonedTime (s : List Char) : Bool :=
  (afterTime? s).any fun rest ↦ rest.isEmpty || isOffset rest

def moment? (s : List Char) : Option Toml :=
  match afterDate? s with
  | some [] => some moment
  | some (t :: rest) => if (t = 'T' || t = 't') && isZonedTime rest then some moment else none
  | none => if (afterTime? s).any List.isEmpty then some moment else none

def boolean? (s : List Char) : Option Toml :=
  if s = "true".toList then some (boolean true)
  else if s = "false".toList then some (boolean false) else none

def scalar? (s : List Char) : Option (Toml × List Char) := do
  let (word, rest) := s.span isWordChar
  let value ← boolean? word <|> moment? word <|> float? word <|> integer? word
  match afterDate? word, rest with
  | some [], ' ' :: time =>
    let (clock, behind) := time.span isWordChar
    return (value, if isZonedTime clock then behind else rest)
  | _, _ => return (value, rest)

end HookPatch.Toml
