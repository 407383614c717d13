namespace HookPatch

inductive Instruction
  | pushInt (value : Int64)
  | pushString (value : String)
  | pushFunction (name : String)
  | pushArgument (index : UInt16)
  | pop
  | add
  | call (target : String) (argc : UInt16)
  | ret
  | exit
  | nop
  deriving DecidableEq, Repr

namespace Instruction

def reference? : Instruction → Option String
  | call target _ => some target
  | pushFunction name => some name
  | _ => none

def isCallTo (target : String) (argc : UInt16) (i : Instruction) : Bool := i = call target argc

end Instruction

end HookPatch
