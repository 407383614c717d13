import HookPatch.RunError

namespace HookPatch

structure Launch where
  program : Path
  directory : Path
  arguments : List String
  deriving DecidableEq, Repr

namespace Launch

def argumentsFor (image : Path) (forwarded : List String) : List String :=
  "-game" :: image.text :: forwarded

def ofCommandLine (baseDirectory : Path) (arguments : List String) (image : Path) :
    Except RunError Launch :=
  match arguments with
  | [] => .error .noProgram
  | exe :: forwarded =>
    .ok {
      program := baseDirectory.child exe
      directory := baseDirectory
      arguments := argumentsFor image forwarded }

/-- The error of a launch that is refused. A file tree has no programs, so there it always is. -/
def refused (launch : Launch) : RunError := .inaccessible launch.program

end Launch

end HookPatch
