import HookPatch.Config
import HookPatch.Run.Fingerprint

namespace HookPatch

/-- What a run does, as far as order matters. -/
inductive Event
  | instantiate (modId : String)
  | prepare (modId : String)
  | patch (modId : String)
  | registerExport (modId name : String)
  | start (modId : String)
  | copy
  /-- The patched image of the run that stored this fingerprint is used. -/
  | reuse (f : Fingerprint)
  | build (f : Fingerprint)
  deriving DecidableEq, Repr

structure Progress (σ : Type) where
  host : Host σ
  events : List Event := []

/-- A part of a run, which keeps what it has done when it fails. -/
abbrev Run (σ α : Type) := EStateM RunError (Progress σ) α

structure Outcome where
  image : Path
  rebuilt : Bool
  mods : List String
  deriving DecidableEq, Repr

structure LoadedMod (σ : Type) where
  mod : Mod
  logic : ModLogic σ

structure Patcher (σ : Type) where
  config : Config
  zstd : Zstd
  catalog : Catalog σ := {}
  exeName : String
  strictness : Assembly.Strictness := .strict

namespace Run

variable {σ α : Type}

def note (e : Event) : Run σ Unit := modify fun p ↦ { p with events := p.events ++ [e] }

def reading (f : FileTree → Except RunError α) : Run σ α := fun p ↦
  match f p.host.files with
  | .error e => .error e p
  | .ok a => .ok a p

def surveying (f : FileTree → Survey α) : Run σ α := fun p ↦
  match f p.host.files p.host.warnings with
  | .error e warnings => .error e { p with host := { p.host with warnings } }
  | .ok a warnings => .ok a { p with host := { p.host with warnings } }

def writing (x : EStateM RunError FileTree α) : Run σ α := fun p ↦
  match x p.host.files with
  | .error e files => .error e { p with host := { p.host with files } }
  | .ok a files => .ok a { p with host := { p.host with files } }

def calling (event : Event) (blame : Failure → RunError) (x : Callback σ α) : Run σ α := do
  note event
  fun p ↦
    match x p.host with
    | .error e host => .error (blame e) { p with host }
    | .ok a host => .ok a { p with host }

def editing (blame : EditError → RunError) (x : Edit Unit) (w : Workspace) : Run σ Workspace :=
  match x w with
  | .error e _ => throw (blame e)
  | .ok _ w => return w

end Run

def Image.store (z : Zstd) (image : Image) (format : ImageFormat) (path : Path) :
    EStateM RunError FileTree Unit := fun t ↦
  match image.save z format t path with
  | .error e => .error (.image e) t
  | .ok t => .ok () t

namespace Patcher

open Run

variable {σ : Type} (l : Patcher σ)

def loadOrder (t : FileTree) : Survey LoadOrder := LoadOrder.load t l.config.modsPath

def fingerprint (t : FileTree) (mods : List Mod) : Survey Fingerprint :=
  Fingerprint.ofRun t l.catalog l.exeName l.config.baseImagePath mods

def copyBase : EStateM RunError FileTree Unit := fun t ↦
  match t.copy l.config.baseImagePath l.config.patchedImagePath with
  | (t, .error _) => .error (.inaccessible l.config.patchedImagePath) t
  | (t, .ok _) => .ok () t

/-- A run without mods. The stored fingerprint is removed, since the patched image is no longer that
of the run that stored it. -/
def runPlain : Run σ Outcome := do
  writing l.copyBase
  note .copy
  writing (Fingerprint.forget l.config.fingerprintPath)
  return { image := l.config.patchedImage, rebuilt := false, mods := [] }

def instantiate (m : Mod) : Run σ (LoadedMod σ) := do
  let logic ←
    calling (.instantiate m.id) (.modFailed m.id .instantiate) (l.catalog.instantiate m)
  return { mod := m, logic }

def isStale (f : Fingerprint) (t : FileTree) : Except RunError Bool :=
  (f.isStored t l.config.fingerprintPath).map fun current ↦
    !current || !t.existsAt l.config.patchedImagePath

def openImage : Run σ Workspace := do
  let image ← reading fun t ↦ (Image.load l.zstd t l.config.baseImagePath).mapError .image
  editing (.stepFailed .interop) (Export.addSelector l.config.interopLibraryPath.text) { image }

def prepare (image : Image) (m : LoadedMod σ) : Run σ Environment := do
  let env ← reading fun t ↦ Environment.load t m.mod
  calling (.prepare m.mod.id) (.modFailed m.mod.id .prepare) (m.logic.prepare env image)
  return env

def patching (m : LoadedMod σ) (env : Environment) (work : Workspace) : Callback σ Workspace :=
  fun host ↦
    let context : PatchContext :=
      { strictness := l.strictness, environment := env, placeholder := l.config.placeholder }
    match m.logic.patch context { host, work } with
    | .error e p => .error e p.host
    | .ok _ p => .ok p.work p.host

def registerExport (m : LoadedMod σ) (work : Workspace) (x : Export) : Run σ Workspace := do
  note (.registerExport m.mod.id x.name)
  editing (fun e ↦ .modFailed m.mod.id .interop e.failure)
    (x.register l.strictness m.mod.id) work

def patch (work : Workspace) (m : LoadedMod σ × Environment) : Run σ Workspace := do
  let (m, env) := m
  let work ← calling (.patch m.mod.id) (.modFailed m.mod.id .patch) (l.patching m env work)
  let exports := m.logic.exports (← get).host
  exports.foldlM (l.registerExport m) work

def rebuild (loaded : List (LoadedMod σ)) : Run σ Image := do
  let work ← l.openImage
  let environments ← loaded.mapM (prepare work.image)
  let work ← (loaded.zip environments).foldlM l.patch work
  let work ← editing (.stepFailed .finalize) (discard Engine.applyRedirects) work
  return work.image

def start (m : LoadedMod σ) : Run σ Unit :=
  calling (.start m.mod.id) (.startFailed m.mod.id) (m.logic.start m.mod)

/-- Makes sure that the patched image is that of the fingerprint, and tells whether it was built. -/
def provideImage (loaded : List (LoadedMod σ)) (f : Fingerprint) : Run σ Bool := do
  let stale ← reading (l.isStale f)
  if stale then
    let image ← l.rebuild loaded
    writing (image.store l.zstd l.config.imageFormat l.config.patchedImagePath)
    note (.build f)
  else note (.reuse f)
  return stale

def runMods (mods : List Mod) : Run σ Outcome := do
  let f ← surveying fun t ↦ l.fingerprint t mods
  let loaded ← mods.mapM l.instantiate
  let rebuilt ← l.provideImage loaded f
  loaded.forM start
  writing (f.save l.config.fingerprintPath)
  return { image := l.config.patchedImage, rebuilt, mods := mods.map Mod.id }

/-- Every phase is done for all mods, in load order, before the next one begins. The first failure ends
the run, so that a failed run stores no fingerprint. -/
def run : Run σ Outcome := do
  let found := (← get).host.files.isFile l.config.baseImagePath
  if !found then throw (.missingBaseImage l.config.baseImagePath)
  let order ← surveying l.loadOrder
  if order.mods.isEmpty then l.runPlain else l.runMods order.mods

end Patcher

end HookPatch
