import HookPatch.Mod.Metadata

namespace HookPatch

structure Mod where
  metadata : Metadata
  directory : Path
  deriving DecidableEq, Repr

namespace Mod

def id (m : Mod) : String := m.metadata.id

def manifestName : String := "patches.json"

def metadataNames : List String := ["mod.json", "mod.toml"]

def namesBuildFile (m : Mod) : Bool := m.metadata.buildFile.isSome

/-- The file that identifies the build of the mod, which is its manifest unless it names another. -/
def buildPath (m : Mod) : Path := m.directory.child (m.metadata.buildFile.getD manifestName)

def manifestPath (m : Mod) : Path := m.directory.child manifestName

def scriptDirectory (m : Mod) : Path := m.directory.child "scripts"

def assetDirectory (m : Mod) : Path := m.directory.child "assets"

end Mod

end HookPatch
