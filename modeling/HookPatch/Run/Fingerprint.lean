import HookPatch.Mod.Catalog
import HookPatch.Mod.Discovery
import HookPatch.Sha256

namespace HookPatch

def programVersion : String := "0.1.0"

def contentHash (t : FileTree) (path : Path) : Except RunError String :=
  match t.read path with
  | .error _ => .error (.inaccessible path)
  | .ok content => .ok (Sha256.hex content)

namespace Mod

/-- The hash of the build file of a mod, empty if it names none and the usual one does not exist. -/
def buildHash (t : FileTree) (m : Mod) : Except RunError String :=
  if !m.namesBuildFile && !t.existsAt m.buildPath then .ok ""
  else contentHash t m.buildPath

def scriptRecord (t : FileTree) (path : Path) : Except RunError String := do
  return path.fileName?.getD "" ++ "\x00" ++ (← contentHash t path)

def scriptHash (t : FileTree) (m : Mod) : Except RunError String := do
  let files ← m.scriptPaths t
  if files.isEmpty then return ""
  let records ← files.mapM (scriptRecord t)
  return Sha256.hex (String.join records).toUTF8

end Mod

structure Fingerprint where
  text : String
  deriving DecidableEq, Repr

namespace Fingerprint

variable {σ : Type}

def part (t : FileTree) (catalog : Catalog σ) (m : Mod) : Survey String := do
  let version := catalog.buildVersion? m.id
  let build ← MonadExcept.ofExcept (m.buildHash t)
  if build.isEmpty && version.isNone && catalog.contains m.id then warn (.untrackedCode m.id)
  let scripts ← MonadExcept.ofExcept (m.scriptHash t)
  return m.metadata.name ++ m.metadata.version ++ version.getD "" ++ build ++ scripts

/-- The fingerprint of some values and mods: the name of the host program, the hash of the base image,
a version, and what each mod adds, in load order. -/
def compute (t : FileTree) (catalog : Catalog σ) (exeName : String) (baseImage : Path)
    (version : String) (mods : List Mod) : Survey Fingerprint := do
  let base ← MonadExcept.ofExcept (contentHash t baseImage)
  let parts ← mods.mapM (part t catalog)
  return { text := exeName ++ base ++ version ++ String.join parts }

def ofRun (t : FileTree) (catalog : Catalog σ) (exeName : String) (baseImage : Path)
    (mods : List Mod) : Survey Fingerprint :=
  compute t catalog exeName baseImage programVersion mods

def load (t : FileTree) (path : Path) : Except RunError (Option Fingerprint) :=
  if t.existsAt path then
    match t.readText path with
    | .error _ => .error (.inaccessible path)
    | .ok text => .ok (some { text := String.ofList (Text.trimLineEnds text.toList) })
  else .ok none

def isStored (t : FileTree) (path : Path) (f : Fingerprint) : Except RunError Bool :=
  (load t path).map (· = some f)

def forget (path : Path) : EStateM RunError FileTree Unit := fun t ↦
  match t.removeFile path with
  | .ok t => .ok () t
  | .error .notFound => .ok () t
  | .error _ => .error (.inaccessible path) t

def save (path : Path) (f : Fingerprint) : EStateM RunError FileTree Unit := fun t ↦
  let parent := path.parent?.getD ⟨""⟩
  match t.makePath parent with
  | (t, .error _) => .error (.inaccessible parent) t
  | (t, .ok _) =>
    match t.writeText path f.text with
    | .error _ => .error (.inaccessible path) t
    | .ok t => .ok () t

end Fingerprint

end HookPatch
