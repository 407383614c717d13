import HookPatch.Assembly.Source
import HookPatch.Failure
import HookPatch.Workspace

namespace HookPatch

inductive EditError
  | unknownName (name : String)
  | nameTaken (name : String)
  | badSource (target : String) (cause : Assembly.SourceError)
  | danglingRedirect (function replacement : String)
  deriving DecidableEq, Repr

namespace EditError

def message : EditError → String
  | unknownName name => "code unit or function `" ++ name ++ "` not found"
  | nameTaken name => "`" ++ name ++ "` is already declared in the image"
  | badSource target _ => "failed to compile hook for `" ++ target ++ "`"
  | danglingRedirect function replacement =>
    "redirect of `" ++ function ++ "` targets missing unit `" ++ replacement ++ "`"

def causes : EditError → List String
  | badSource _ cause => [cause.message]
  | _ => []

def failure (e : EditError) : Failure := { message := e.message, causes := e.causes }

end EditError

/-- An edit, which keeps what it has done so far also when it fails. -/
abbrev Edit := EStateM EditError Workspace

end HookPatch
