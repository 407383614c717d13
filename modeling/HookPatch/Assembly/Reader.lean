import HookPatch.Instruction
import HookPatch.Text.Blank
import HookPatch.Text.Numeral

namespace HookPatch.Assembly

open Text

inductive LineFault
  | invalidInteger (operand : String) (cause : NumeralFault)
  | invalidArgumentIndex (operand : String) (cause : NumeralFault)
  | invalidArgumentCount (operand : String) (cause : NumeralFault)
  | invalidIdentifier (name : String)
  | expectedCall (operand : String)
  | expectedArgumentCount (name : String)
  | expectedString (operand : String)
  | unterminatedString
  | unknownEscape (c : Char)
  | trailingText (text : String)
  | unexpectedOperand (mnemonic : String)
  | unknownMnemonic (mnemonic : String)
  | unknownFunction (name : String)
  deriving DecidableEq, Repr

def LineFault.message : LineFault → String
  | invalidInteger operand cause => "invalid integer `" ++ operand ++ "`: " ++ cause.message
  | invalidArgumentIndex operand cause =>
    "invalid argument index `" ++ operand ++ "`: " ++ cause.message
  | invalidArgumentCount operand cause =>
    "invalid argument count `" ++ operand ++ "`: " ++ cause.message
  | invalidIdentifier name => "invalid identifier `" ++ name ++ "`"
  | expectedCall operand => "expected `name(argc=N)`, found `" ++ operand ++ "`"
  | expectedArgumentCount name => "expected `(argc=N)` after `" ++ name ++ "`"
  | expectedString operand => "expected string literal, found `" ++ operand ++ "`"
  | unterminatedString => "unterminated string literal"
  | unknownEscape c => "unknown escape `\\" ++ c.toString ++ "`"
  | trailingText text => "unexpected `" ++ text ++ "` after string literal"
  | unexpectedOperand mnemonic => "`" ++ mnemonic ++ "` takes no operand"
  | unknownMnemonic mnemonic => "unknown mnemonic `" ++ mnemonic ++ "`"
  | unknownFunction name => "unknown function `" ++ name ++ "`"

def isIdentifierChar (c : Char) : Bool := c.isAlphanum || c = '_' || c = '$' || c = '.'

def isIdentifier (s : List Char) : Bool := !s.isEmpty && s.all isIdentifierChar

def readIdentifier (s : List Char) : Except LineFault String :=
  if isIdentifier s then .ok (String.ofList s) else .error (.invalidIdentifier (String.ofList s))

def unescapeChar? (c : Char) : Option Char :=
  if c = 'n' then some '\n' else if c = 't' then some '\t'
  else if c = '"' then some '"' else if c = '\\' then some '\\' else none

/-- Reads the content of a literal, behind `value` in reverse, up to its closing quote. -/
def readLiteral (value : List Char) : List Char → Except LineFault (List Char × List Char)
  | [] => .error .unterminatedString
  | '"' :: rest => .ok (value.reverse, rest)
  | '\\' :: [] => .error .unterminatedString
  | '\\' :: c :: rest =>
    match unescapeChar? c with
    | some d => readLiteral (d :: value) rest
    | none => .error (.unknownEscape c)
  | c :: rest => readLiteral (c :: value) rest

def readString (operand : List Char) : Except LineFault String :=
  match operand with
  | '"' :: s => do
    let (value, rest) ← readLiteral [] s
    let trailing := trim rest
    if trailing.isEmpty then .ok (String.ofList value)
    else .error (.trailingText (String.ofList trailing))
  | _ => .error (.expectedString (String.ofList operand))

def readCall (operand : List Char) : Except LineFault Instruction := do
  let some (name, rest) := splitAt? '(' operand
    | .error (.expectedCall (String.ofList operand))
  let name := trim name
  let some count := (stripLast? ')' rest).bind fun inner ↦ stripStart? "argc=".toList (trim inner)
    | .error (.expectedArgumentCount (String.ofList name))
  match readUInt16 (trim count) with
  | .error cause => .error (.invalidArgumentCount (String.ofList count) cause)
  | .ok argc => return .call (← readIdentifier name) argc

def plain? (mnemonic : String) : Option Instruction :=
  if mnemonic = "pop" then some .pop else if mnemonic = "add" then some .add
  else if mnemonic = "ret" then some .ret else if mnemonic = "exit" then some .exit
  else if mnemonic = "nop" then some .nop else none

def readOperand (mnemonic : String) (operand : List Char) : Except LineFault Instruction :=
  if mnemonic = "push.l" then
    match readInt64 operand with
    | .ok value => .ok (.pushInt value)
    | .error cause => .error (.invalidInteger (String.ofList operand) cause)
  else if mnemonic = "push.s" then (readString operand).map .pushString
  else if mnemonic = "push.f" then (readIdentifier operand).map .pushFunction
  else if mnemonic = "push.a" then
    match readUInt16 operand with
    | .ok index => .ok (.pushArgument index)
    | .error cause => .error (.invalidArgumentIndex (String.ofList operand) cause)
  else if mnemonic = "call" then readCall operand
  else
    match plain? mnemonic with
    | none => .error (.unknownMnemonic mnemonic)
    | some i => if operand.isEmpty then .ok i else .error (.unexpectedOperand mnemonic)

def readInstruction (s : List Char) : Except LineFault Instruction :=
  let (mnemonic, rest) := splitBlank (trim s)
  readOperand (String.ofList mnemonic) (trim rest)

end HookPatch.Assembly
