import HookPatch.Engine.Edit
import HookPatch.ImageFile

namespace HookPatch

inductive Phase
  | instantiate
  | prepare
  | patch
  | interop
  | finalize
  deriving DecidableEq, Repr

def Phase.name : Phase → String
  | instantiate => "instantiate"
  | prepare => "prepare"
  | patch => "patch"
  | interop => "interop"
  | finalize => "finalize"

inductive RunError
  | missingBaseImage (path : Path)
  | noProgram
  | modFailed (modId : String) (phase : Phase) (cause : Failure)
  /-- A step for all mods together fails. -/
  | stepFailed (phase : Phase) (cause : EditError)
  | startFailed (modId : String) (cause : Failure)
  | inaccessible (path : Path)
  | image (cause : ImageError)
  deriving DecidableEq, Repr

namespace RunError

def message : RunError → String
  | missingBaseImage path => "base image " ++ path.text ++ " not found"
  | noProgram => "host command line is empty, expected the executable name first"
  | modFailed modId phase _ => "mod `" ++ modId ++ "` failed during " ++ phase.name
  | stepFailed phase _ => "hook " ++ phase.name ++ " step failed"
  | startFailed modId _ => "mod `" ++ modId ++ "` failed to start"
  | inaccessible path => "I/O error on " ++ path.text
  | image cause => cause.message

def causes : RunError → List String
  | missingBaseImage _ => []
  | noProgram => []
  | modFailed _ _ cause => cause.message :: cause.causes
  | stepFailed _ cause => cause.message :: cause.causes
  | startFailed _ cause => cause.message :: cause.causes
  | inaccessible _ => [Fault.access.message]
  | image cause => cause.causes

def failure (e : RunError) : Failure := { message := e.message, causes := e.causes }

end RunError

end HookPatch
