import HookPatch.RunError
import HookPatch.Text.Lines
import HookPatch.Warning

namespace HookPatch

/-- Looking at a file tree, with the warnings so far, which outlast a failure. -/
abbrev Survey := EStateM RunError (List Warning)

def warn (w : Warning) : Survey Unit := modify (· ++ [w])

namespace Mod

def metadataFile? (t : FileTree) (directory : Path) : Option Path :=
  (metadataNames.map directory.child).find? t.isFile

def inDirectory (t : FileTree) (directory : Path) : Except Warning Mod :=
  match metadataFile? t directory with
  | none => .error (.missingMetadata directory)
  | some path =>
    match Metadata.load t path with
    | .error _ => .error (.skippedMod directory)
    | .ok metadata => .ok { metadata, directory }

def inDirectories (t : FileTree) : List Path → Survey (List Mod)
  | [] => return []
  | directory :: rest =>
    match inDirectory t directory with
    | .error w => do
      warn w
      inDirectories t rest
    | .ok m => do
      let mods ← inDirectories t rest
      return m :: mods

def findAll (t : FileTree) (path : Path) : Survey (List Mod) := do
  if t.existsAt path then
    match t.list path with
    | .error _ => throw (.inaccessible path)
    | .ok names => inDirectories t ((names.map path.child).filter t.isDirectory)
  else
    warn (.missingMods path)
    return []

end Mod

/-- The entries of a list file: none if there is no file, else an empty entry and its lines. -/
def readList (t : FileTree) (path : Path) : Except RunError (List String) :=
  if t.existsAt path then
    match t.readText path with
    | .error _ => .error (.inaccessible path)
    | .ok text => .ok ("" :: (Text.lines text.toList).map String.ofList)
  else .ok []

def allowListName : String := "whitelist.txt"

def denyListName : String := "blacklist.txt"

def LoadOrder.load (t : FileTree) (path : Path) : Survey LoadOrder := do
  let available ← Mod.findAll t path
  let allowed ← MonadExcept.ofExcept (readList t (path.child allowListName))
  let denied ← MonadExcept.ofExcept (readList t (path.child denyListName))
  let order := LoadOrder.ofMods available allowed denied
  order.excluded.forM fun reason ↦ warn (.excludedMod reason)
  return order

end HookPatch
