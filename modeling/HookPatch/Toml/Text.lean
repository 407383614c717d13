import HookPatch.Text.Digit
import HookPatch.Toml.Value

namespace HookPatch.Toml

def isPlain (c : Char) : Bool := c = '\t' || (' ' ≤ c && c ≠ '\x7f')

def skipBlanks (s : List Char) : List Char := s.dropWhile fun c ↦ c = ' ' || c = '\t'

def lineEnd? (s : List Char) : Option (List Char) :=
  match s with
  | '\n' :: rest => some rest
  | '\r' :: '\n' :: rest => some rest
  | _ => none

def skipLine? (s : List Char) : Option (List Char) :=
  let s := skipBlanks s
  let s := if s.head? = some '#' then s.tail.dropWhile isPlain else s
  if s.isEmpty then some [] else lineEnd? s

def skipTrivia? (inComment : Bool) : List Char → Option (List Char)
  | [] => if inComment then none else some []
  | '\n' :: rest => skipTrivia? false rest
  | '\r' :: '\n' :: rest => skipTrivia? false rest
  | c :: rest =>
    if inComment then if isPlain c then skipTrivia? true rest else none
    else if c = ' ' || c = '\t' then skipTrivia? false rest
    else if c = '#' then skipTrivia? true rest
    else some (c :: rest)

def skipSpace : List Char → List Char
  | '\n' :: rest => skipSpace rest
  | '\r' :: '\n' :: rest => skipSpace rest
  | c :: rest => if c = ' ' || c = '\t' then skipSpace rest else c :: rest
  | [] => []

def codePoint? (width : Nat) (s : List Char) : Option (Char × List Char) := do
  let digits := s.take width
  let n := Text.numberOf 16 digits
  guard (digits.length = width && digits.all Text.isHexDigit && n.isValidChar)
  return (Char.ofNat n, s.drop width)

def escape? (s : List Char) : Option (Char × List Char) :=
  match s with
  | 'b' :: rest => some ('\x08', rest)
  | 'f' :: rest => some ('\x0c', rest)
  | 'n' :: rest => some ('\n', rest)
  | 'r' :: rest => some ('\r', rest)
  | 't' :: rest => some ('\t', rest)
  | '\\' :: rest => some ('\\', rest)
  | '"' :: rest => some ('"', rest)
  | 'u' :: rest => codePoint? 4 rest
  | 'U' :: rest => codePoint? 8 rest
  | _ => none

def basic? : Nat → List Char → List Char → Option (String × List Char)
  | 0, _, _ => none
  | fuel + 1, done, s =>
    match s with
    | '"' :: rest => some (String.ofList done.reverse, rest)
    | '\\' :: rest => do
      let (c, rest) ← escape? rest
      basic? fuel (c :: done) rest
    | c :: rest => if isPlain c then basic? fuel (c :: done) rest else none
    | [] => none

def literal? (s : List Char) : Option (String × List Char) :=
  match s.span fun c ↦ isPlain c && c ≠ '\'' with
  | (content, '\'' :: rest) => some (String.ofList content, rest)
  | _ => none

/-- What stands behind a line end that is escaped, with all space that follows it. -/
def escapedLineEnd? (s : List Char) : Option (List Char) := (lineEnd? (skipBlanks s)).map skipSpace

/-- Reads a string of several lines between triple quotes, behind its opening, with `done` read in
reverse. One or two quotes belong to the content, also right before the closing quotes. -/
def multiline? (quote : Char) : Nat → List Char → List Char → Option (String × List Char)
  | 0, _, _ => none
  | fuel + 1, done, s =>
    match s with
    | [] => none
    | '\n' :: rest => multiline? quote fuel ('\n' :: done) rest
    | '\r' :: '\n' :: rest => multiline? quote fuel ('\n' :: done) rest
    | c :: rest =>
      if c = quote then
        let quotes := (s.takeWhile (· = quote)).length
        if quotes < 3 then
          multiline? quote fuel (List.replicate quotes quote ++ done) (s.drop quotes)
        else
          let kept := min (quotes - 3) 2
          some (String.ofList (List.replicate kept quote ++ done).reverse, s.drop (kept + 3))
      else if c = '\\' && quote = '"' then
        match escapedLineEnd? rest with
        | some rest => multiline? quote fuel done rest
        | none => do
          let (c, rest) ← escape? rest
          multiline? quote fuel (c :: done) rest
      else if isPlain c then multiline? quote fuel (c :: done) rest
      else none

def block? (quote : Char) (s : List Char) : Option (String × List Char) :=
  let s := (lineEnd? s).getD s
  multiline? quote (s.length + 1) [] s

def inlineString? (s : List Char) : Option (String × List Char) :=
  match s with
  | '"' :: rest => basic? (rest.length + 1) [] rest
  | '\'' :: rest => literal? rest
  | _ => none

def anyString? (s : List Char) : Option (String × List Char) :=
  match s with
  | '"' :: '"' :: '"' :: rest => block? '"' rest
  | '\'' :: '\'' :: '\'' :: rest => block? '\'' rest
  | _ => inlineString? s

end HookPatch.Toml
