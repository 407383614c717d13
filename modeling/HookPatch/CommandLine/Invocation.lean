import HookPatch.FileTree.Path

namespace HookPatch

inductive Command
  /-- Patch and launch; the host program comes first. -/
  | run (arguments : List String)
  | patch (exe : String)
  | order
  | fingerprint (exe : String)
  | disassemble (image : Path) (unit : Option String)
  deriving DecidableEq, Repr

structure Invocation where
  baseDirectory : Path
  config : Option Path
  command : Command
  deriving DecidableEq, Repr

inductive Request
  | usage
  | help
  | version
  | invoke (i : Invocation)
  deriving DecidableEq, Repr

namespace CommandLine

inductive Switch
  | baseDirectory
  | config
  | exe
  | unit
  | help
  | version
  deriving DecidableEq, Repr

namespace Switch

def letter : Switch → Char
  | baseDirectory => 'b'
  | config => 'c'
  | exe => 'e'
  | unit => 'u'
  | help => 'h'
  | version => 'V'

def word : Switch → String
  | baseDirectory => "base-dir"
  | config => "config"
  | exe => "exe"
  | unit => "unit"
  | help => "help"
  | version => "version"

def request? : Switch → Option Request
  | help => some .help
  | version => some .version
  | _ => none

def isPath : Switch → Bool
  | baseDirectory => true
  | config => true
  | _ => false

end Switch

/-- Where reading is: before a command or behind one. -/
inductive Scope
  | top
  | run
  | patch
  | order
  | fingerprint
  | disassemble
  deriving DecidableEq, Repr

namespace Scope

def ofName? (name : String) : Option Scope :=
  if name = "run" then some run else if name = "patch" then some patch
  else if name = "order" then some order else if name = "fingerprint" then some fingerprint
  else if name = "disasm" then some disassemble else none

def switches : Scope → List Switch
  | top => [.baseDirectory, .config, .help, .version]
  | run => [.baseDirectory, .config, .help]
  | patch => [.exe, .baseDirectory, .config, .help]
  | order => [.baseDirectory, .config, .help]
  | fingerprint => [.exe, .baseDirectory, .config, .help]
  | disassemble => [.unit, .baseDirectory, .config, .help]

def byLetter? (s : Scope) (c : Char) : Option Switch := s.switches.find? (·.letter = c)

def byWord? (s : Scope) (word : List Char) : Option Switch :=
  s.switches.find? (·.word.toList = word)

/-- The most arguments that are no options. All those of `run` are read at once. -/
def capacity : Scope → Nat
  | disassemble => 1
  | _ => 0

end Scope

inductive Shape
  | separator
  | word (name : List Char) (value : Option (List Char))
  | letters (first : Char) (rest : List Char)
  | plain

def shape : List Char → Shape
  | ['-', '-'] => .separator
  | '-' :: '-' :: rest =>
    match rest.span (· ≠ '=') with
    | (name, _ :: value) => .word name (some value)
    | (name, []) => .word name none
  | '-' :: c :: rest => .letters c rest
  | _ => .plain

/-- Whether an argument in the place of the host program or of a value is taken as it is although it
looks like options: no such option is known. -/
def isForeign (scope : Scope) : Shape → Bool
  | .word name _ => (scope.byWord? name).isNone
  | .letters c rest => (c :: rest).any fun c ↦ (scope.byLetter? c).isNone
  | _ => false

abbrev Values := List (Switch × String)

/-- Whether no switch has two values, and no path is empty. -/
def Values.areSound : Values → Bool
  | [] => true
  | (s, value) :: rest =>
    (rest.lookup s).isNone && !(s.isPath && value.isEmpty) && Values.areSound rest

structure Draft where
  scope : Scope := .top
  /-- The values given before the command. -/
  outer : Values := []
  values : Values := []
  arguments : List String := []
  pending : Option Switch := none

namespace Draft

def setValue (d : Draft) (s : Switch) (value : String) : Draft :=
  { d with values := (s, value) :: d.values, pending := none }

def addArgument (d : Draft) (a : String) : Except Request Draft :=
  if d.arguments.length < d.scope.capacity && !a.isEmpty then
    .ok { d with arguments := d.arguments ++ [a] }
  else .error .usage

def checked (d : Draft) : Except Request Draft :=
  if d.values.areSound then .ok d else .error .usage

def addArguments : Draft → List String → Except Request Draft
  | d, [] => .ok d
  | d, a :: rest =>
    match d.addArgument a with
    | .error r => .error r
    | .ok d => d.addArguments rest

def readSwitch (d : Draft) (s : Switch) (value : Option (List Char)) : Except Request Draft :=
  match value with
  | some v => (d.setValue s (String.ofList v)).checked
  | none => .ok { d with pending := some s }

def readWord (d : Draft) (name : List Char) (value : Option (List Char)) :
    Except Request Draft := do
  let d ← d.checked
  match d.scope.byWord? name with
  | none => .error .usage
  | some s =>
    match s.request? with
    | none => d.readSwitch s value
    | some r => .error (if value.isSome then .usage else r)

def readLetter (d : Draft) (c : Char) (rest : List Char) : Except Request Draft := do
  let d ← d.checked
  match d.scope.byLetter? c with
  | none => .error .usage
  | some s =>
    match s.request? with
    | some r => .error r
    | none =>
      d.readSwitch s <|
        match rest with
        | [] => none
        | '=' :: value => some value
        | value => some value

def readPlain (d : Draft) (a : String) : Except Request Draft :=
  if d.scope = .top then
    match Scope.ofName? a with
    | none => .error .usage
    | some scope => .ok { scope, outer := d.values }
  else d.addArgument a

def helpOn : List String → Request
  | [] => .help
  | [name] => if name = "help" || (Scope.ofName? name).isSome then .help else .usage
  | _ => .usage

def read (d : Draft) : List String → Except Request Draft
  | [] => if d.pending.isSome then .error .usage else .ok d
  | a :: rest =>
    let form := shape a.toList
    let plain :=
      match form with
      | .plain => true
      | _ => d.scope = .run && isForeign d.scope form
    match d.pending with
    | some s =>
      if plain then (d.setValue s a).read rest else .error .usage
    | none =>
      if d.scope = .run && plain then .ok { d with arguments := a :: rest }
      else
        match form with
        | .separator =>
          if d.scope = .run then .ok { d with arguments := rest }
          else if d.scope = .top then .error .usage
          else d.addArguments rest
        | .word name value =>
          match d.readWord name value with
          | .error r => .error r
          | .ok d => d.read rest
        | .letters c more =>
          match d.readLetter c more with
          | .error r => .error r
          | .ok d => d.read rest
        | .plain =>
          if d.scope = .top && a = "help" then .error (helpOn rest)
          else
            match d.readPlain a with
            | .error r => .error r
            | .ok d => d.read rest

def value? (d : Draft) (s : Switch) : Option String :=
  (d.values.lookup s).or (d.outer.lookup s)

def exe (d : Draft) : String := (d.value? .exe).getD "game.exe"

def command? (d : Draft) : Option Command :=
  match d.scope, d.arguments with
  | .run, a :: rest => some (.run (a :: rest))
  | .patch, _ => some (.patch d.exe)
  | .order, _ => some .order
  | .fingerprint, _ => some (.fingerprint d.exe)
  | .disassemble, [image] => some (.disassemble ⟨image⟩ (d.value? .unit))
  | _, _ => none

end Draft

/-- Reading goes from left to right and ends at the first mistake. An option is given at most once before
the command and once behind it. A value in an argument of its own is looked at only when the next
option before or behind the same command is read, or at the end. -/
def read (arguments : List String) : Request :=
  match ({} : Draft).read arguments with
  | .error r => r
  | .ok d =>
    match d.command? with
    | none => .usage
    | some command =>
      if d.values.areSound && d.outer.areSound then
        .invoke {
          baseDirectory := ⟨(d.value? .baseDirectory).getD "."⟩
          config := (d.value? .config).map Path.mk
          command }
      else .usage

end CommandLine

end HookPatch
