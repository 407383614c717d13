import HookPatch.Toml.Scalar
import HookPatch.Toml.Text

namespace HookPatch.Toml

/-- How a table has come to be. One that a header or a dotted key only passes through may get a header
later, once; one made by dotted keys may be extended by dotted keys alone. -/
inductive Origin
  | header
  | implied
  | dotted
  deriving DecidableEq

inductive Node
  | value (v : Toml)
  | table (origin : Origin) (entries : List (String × Node))
  /-- An array of tables, of which the last is being filled. -/
  | tables (before : List (List (String × Node))) (last : List (String × Node))

abbrev Entries := List (String × Node)

mutual

def Node.toToml : Node → Toml
  | .value v => v
  | .table _ entries => .table (toTomlEntries entries)
  | .tables before last => .array (toTomlTables before ++ [.table (toTomlEntries last)])

def toTomlEntries : List (String × Node) → List (String × Toml)
  | [] => []
  | (key, n) :: rest => (key, n.toToml) :: toTomlEntries rest

def toTomlTables : List (List (String × Node)) → List Toml
  | [] => []
  | entries :: rest => .table (toTomlEntries entries) :: toTomlTables rest

end

def Entries.replace (entries : Entries) (key : String) (n : Node) : Entries :=
  entries.map fun (k, m) ↦ if k = key then (k, n) else (k, m)

/-- Changes the table at the end of a path by `f`, and makes the tables on the way. -/
def within (dotted : Bool) (f : Origin → Entries → Option Entries) :
    List String → Origin → Entries → Option Entries
  | [], origin, entries => f origin entries
  | key :: rest, _, entries =>
    match entries.lookup key with
    | none =>
      let origin := if dotted then Origin.dotted else Origin.implied
      (within dotted f rest origin []).map fun inner ↦ entries ++ [(key, .table origin inner)]
    | some (.value _) => none
    | some (.table origin inner) =>
      if dotted && origin = .header then none
      else
        (within dotted f rest origin inner).map fun inner ↦
          entries.replace key (.table origin inner)
    | some (.tables before last) =>
      (within dotted f rest .header last).map fun last ↦ entries.replace key (.tables before last)

def insertValue (path : List String) (key : String) (v : Toml) (origin : Origin)
    (entries : Entries) : Option Entries :=
  within true (fun origin entries ↦
    if (origin == .dotted) == path.isEmpty then none
    else if (entries.lookup key).isSome then none
    else some (entries ++ [(key, .value v)])) path origin entries

def openTable (key : String) (entries : Entries) : Option Entries :=
  match entries.lookup key with
  | none => some (entries ++ [(key, .table .header [])])
  | some (.table .implied inner) => some (entries.replace key (.table .header inner))
  | _ => none

def openItem (key : String) (entries : Entries) : Option Entries :=
  match entries.lookup key with
  | none => some (entries ++ [(key, .tables [] [])])
  | some (.tables before last) => some (entries.replace key (.tables (before ++ [last]) []))
  | _ => none

def isBareChar (c : Char) : Bool := c.isAlphanum || c = '-' || c = '_'

def keyPart? (s : List Char) : Option (String × List Char) :=
  match s with
  | '"' :: _ => inlineString? s
  | '\'' :: _ => inlineString? s
  | _ =>
    let (part, rest) := s.span isBareChar
    if part.isEmpty then none else some (String.ofList part, rest)

def maxDepth : Nat := 79

def keyFor? : Nat → List String → List Char → Option (List String × List Char)
  | 0, _, _ => none
  | left + 1, done, s => do
    let (part, s) ← keyPart? (skipBlanks s)
    match skipBlanks s with
    | '.' :: rest => keyFor? left (part :: done) rest
    | rest => return ((part :: done).reverse, rest)

def key? (s : List Char) : Option (List String × String × List Char) := do
  let (parts, s) ← keyFor? maxDepth [] s
  return (parts.dropLast, ← parts.getLast?, s)

def items? (value : List Char → Option (Toml × List Char)) :
    Nat → List Toml → List Char → Option (List Toml × List Char)
  | 0, _, _ => none
  | fuel + 1, done, s => do
    match ← skipTrivia? false s with
    | ']' :: rest => return (done.reverse, rest)
    | s =>
      let (v, s) ← value s
      match ← skipTrivia? false s with
      | ',' :: rest => items? value fuel (v :: done) rest
      | ']' :: rest => return ((v :: done).reverse, rest)
      | _ => none

def assignment? (value : List Char → Option (Toml × List Char)) (s : List Char) :
    Option (List String × String × Toml × List Char) := do
  let (path, key, s) ← key? s
  let '=' :: s := s | none
  let (v, s) ← value (skipBlanks s)
  return (path, key, v, s)

def members? (value : List Char → Option (Toml × List Char)) :
    Nat → Entries → List Char → Option (Entries × List Char)
  | 0, _, _ => none
  | fuel + 1, done, s => do
    let (path, key, v, s) ← assignment? value s
    let done ← insertValue path key v .header done
    match skipBlanks s with
    | ',' :: rest => members? value fuel done rest
    | '}' :: rest => return (done, rest)
    | _ => none

def value? : Nat → List Char → Option (Toml × List Char)
  | depth, s =>
    match s with
    | '[' :: rest =>
      match depth with
      | 0 => none
      | depth + 1 => (items? (value? depth) (rest.length + 1) [] rest).map fun (xs, rest) ↦
        (.array xs, rest)
    | '{' :: rest =>
      match depth with
      | 0 => none
      | depth + 1 =>
        match skipBlanks rest with
        | '}' :: rest => some (.table [], rest)
        | _ => (members? (value? depth) (rest.length + 1) [] rest).map fun (entries, rest) ↦
          (.table (toTomlEntries entries), rest)
    | '"' :: _ => (anyString? s).map fun (v, rest) ↦ (.string v, rest)
    | '\'' :: _ => (anyString? s).map fun (v, rest) ↦ (.string v, rest)
    | _ => scalar? s

structure Draft where
  entries : Entries := []
  path : List String := []

/-- Reads a header behind its opening brackets, and opens its table by `enter`. -/
def header? (enter : String → Entries → Option Entries) (closing : List Char) (draft : Draft)
    (s : List Char) : Option (Draft × List Char) := do
  let (path, key, s) ← key? s
  let s ← closing.isPrefixOf? s
  let s ← skipLine? s
  let entries ← within false (fun _ ↦ enter key) path .header draft.entries
  return ({ entries, path := path ++ [key] }, s)

def entry? (draft : Draft) (s : List Char) : Option (Draft × List Char) := do
  let (path, key, v, s) ← assignment? (value? maxDepth) s
  let s ← skipLine? s
  let entries ← within false (insertValue path key v) draft.path .header draft.entries
  return ({ draft with entries }, s)

def lines? : Nat → Draft → List Char → Option Entries
  | 0, _, _ => none
  | fuel + 1, draft, s =>
    match skipBlanks s with
    | [] => some draft.entries
    | '[' :: '[' :: rest => do
      let (draft, s) ← header? openItem [']', ']'] draft rest
      lines? fuel draft s
    | '[' :: rest => do
      let (draft, s) ← header? openTable [']'] draft rest
      lines? fuel draft s
    | s =>
      match skipLine? s with
      | some rest => lines? fuel draft rest
      | none => do
        let (draft, s) ← entry? draft s
        lines? fuel draft s

def ofText? (text : String) : Option (List (String × Toml)) :=
  let s := text.toList
  let s := if s.head? = some '\ufeff' then s.tail else s
  (lines? (s.length + 1) {} s).map toTomlEntries

end HookPatch.Toml
