import HookPatch.Image
import HookPatch.Assembly.Reader
import HookPatch.Text.Lines

namespace HookPatch.Assembly

open Text

/-- What the assembler asks of the callables that a source refers to. -/
inductive Strictness
  | lenient
  /-- A name has to be taken in the image, or be that of the unit being assembled. -/
  | strict
  deriving DecidableEq, Repr

structure SourceError where
  line : Nat
  cause : LineFault
  deriving DecidableEq, Repr

def SourceError.message (e : SourceError) : String :=
  "line " ++ toString e.line ++ ": " ++ e.cause.message

inductive ScanState
  | code
  | literal
  | escaped
  deriving DecidableEq, Repr

def ScanState.next : ScanState → Char → ScanState
  | code, c => if c = '"' then literal else code
  | literal, c => if c = '\\' then escaped else if c = '"' then code else literal
  | escaped, _ => literal

def beforeComment (state : ScanState) : List Char → List Char
  | [] => []
  | c :: rest =>
    if state = .code ∧ c = ';' then [] else c :: beforeComment (state.next c) rest

def Strictness.admits (strictness : Strictness) (image : Image) (target : String)
    (i : Instruction) : Except LineFault Unit :=
  match strictness, i.reference? with
  | .strict, some name =>
    if name = target || image.hasName name then .ok () else .error (.unknownFunction name)
  | _, _ => .ok ()

def assembleLine (strictness : Strictness) (image : Image) (target : String) (s : List Char) :
    Except LineFault (Option Instruction) := do
  let s := trim (beforeComment .code s)
  if s.isEmpty then return none
  let i ← readInstruction s
  strictness.admits image target i
  return some i

/-- Assembles lines of which the first has the number `number`, behind `done` in reverse. -/
def assembleLines (strictness : Strictness) (image : Image) (target : String) :
    Nat → List Instruction → List (List Char) → Except SourceError (List Instruction)
  | _, done, [] => .ok done.reverse
  | number, done, s :: rest =>
    match assembleLine strictness image target s with
    | .error cause => .error ⟨number, cause⟩
    | .ok none => assembleLines strictness image target (number + 1) done rest
    | .ok (some i) => assembleLines strictness image target (number + 1) (i :: done) rest

def assemble (strictness : Strictness) (image : Image) (target source : String) :
    Except SourceError (List Instruction) :=
  assembleLines strictness image target 1 [] (lines source.toList)

end HookPatch.Assembly
