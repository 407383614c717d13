import HookPatch.Mod.Basic
import HookPatch.RunError

namespace HookPatch

def scriptExtension : String := "asm"

def Mod.scriptPaths (m : Mod) (t : FileTree) : Except RunError (List Path) :=
  if t.isDirectory m.scriptDirectory then
    match t.list m.scriptDirectory with
    | .error _ => .error (.inaccessible m.scriptDirectory)
    | .ok names =>
      .ok ((names.map m.scriptDirectory.child).filter fun path ↦
        t.isFile path && path.extension? = some scriptExtension)
  else .ok []

structure Environment where
  mod : Mod
  scripts : List (String × String) := []
  deriving DecidableEq, Repr

namespace Environment

def script? (env : Environment) (file : String) : Option String := env.scripts.lookup file

def scriptNames (env : Environment) : List String := env.scripts.map (·.1)

def readScript (t : FileTree) (path : Path) : Except RunError (String × String) :=
  match t.readText path with
  | .error _ => .error (.inaccessible path)
  | .ok source => .ok (path.fileName?.getD "", source)

def load (t : FileTree) (m : Mod) : Except RunError Environment := do
  let files ← m.scriptPaths t
  return { mod := m, scripts := ← files.mapM (readScript t) }

end Environment

end HookPatch
