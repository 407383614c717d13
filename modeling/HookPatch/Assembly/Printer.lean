import HookPatch.Instruction

namespace HookPatch.Assembly

def escapeChar (c : Char) : List Char :=
  if c = '"' then ['\\', '"'] else if c = '\\' then ['\\', '\\']
  else if c = '\n' then ['\\', 'n'] else if c = '\t' then ['\\', 't'] else [c]

def escape (value : String) : String := String.ofList (value.toList.flatMap escapeChar)

def line : Instruction → String
  | .pushInt value => "push.l " ++ toString value.toInt
  | .pushString value => "push.s \"" ++ escape value ++ "\""
  | .pushFunction name => "push.f " ++ name
  | .pushArgument index => "push.a " ++ toString index.toNat
  | .pop => "pop"
  | .add => "add"
  | .call target argc => "call " ++ target ++ "(argc=" ++ toString argc.toNat ++ ")"
  | .ret => "ret"
  | .exit => "exit"
  | .nop => "nop"

def listing (body : List Instruction) : String :=
  String.join (body.map fun i ↦ line i ++ "\n")

end HookPatch.Assembly
