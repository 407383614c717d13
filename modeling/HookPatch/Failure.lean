namespace HookPatch

/-- A fault that lies outside the rules of this library and is told by its kind alone. -/
inductive Fault
  | access
  | json
  | toml
  deriving DecidableEq, Repr

def Fault.message : Fault → String
  | access => "<io error>"
  | json => "<json error>"
  | toml => "<toml error>"

structure Failure where
  message : String
  causes : List String := []
  deriving DecidableEq, Repr

namespace Failure

def within (context : String) (f : Failure) : Failure :=
  { message := context, causes := f.message :: f.causes }

def hang (indent : String) (s : String) : String :=
  String.ofList (s.toList.flatMap fun c ↦ if c = '\n' then '\n' :: indent.toList else [c])

def ordinal (n : Nat) : String :=
  let s := toString n
  String.ofList (List.replicate (5 - s.length) ' ') ++ s ++ ": "

def causeLines : List String → List String
  | [cause] => ["    " ++ hang "    " cause]
  | causes => causes.mapIdx fun n cause ↦ ordinal n ++ hang "       " cause

def report (f : Failure) : String :=
  if f.causes.isEmpty then f.message
  else f.message ++ "\n\nCaused by:\n" ++ "\n".intercalate (causeLines f.causes)

end Failure

end HookPatch
