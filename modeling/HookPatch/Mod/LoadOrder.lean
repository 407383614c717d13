import HookPatch.Mod.Basic

namespace HookPatch

structure MissingDependency where
  modId : String
  dependency : String
  deriving DecidableEq, Repr

def MissingDependency.message (d : MissingDependency) : String :=
  "mod `" ++ d.modId ++ "` depends on missing mod `" ++ d.dependency ++ "`"

structure LoadOrder where
  mods : List Mod := []
  excluded : List MissingDependency := []
  deriving DecidableEq, Repr

namespace LoadOrder

def ids (order : LoadOrder) : List String := order.mods.map Mod.id

def contains (order : LoadOrder) (id : String) : Bool := order.mods.any (·.id = id)

def add (order : LoadOrder) (m : Mod) : LoadOrder :=
  if order.contains m.id then order else { order with mods := order.mods ++ [m] }

def require (available : List Mod) (modId : String) (order : LoadOrder) (dependency : String) :
    LoadOrder :=
  match available.find? (·.id = dependency) with
  | some m => order.add m
  | none => { order with excluded := order.excluded ++ [{ modId, dependency }] }

def isComplete (available : List Mod) (m : Mod) : Bool :=
  m.metadata.dependencies.all fun dependency ↦ available.any (·.id = dependency)

/-- Adds the dependencies of a selected mod, and then the mod if none is missing. -/
def consider (available : List Mod) (order : LoadOrder) (m : Mod) : LoadOrder :=
  let required := m.metadata.dependencies.foldl (require available m.id) order
  if isComplete available m then required.add m else required

def isSelected (allowed denied : List String) (m : Mod) : Bool :=
  if allowed.isEmpty then !denied.contains m.id else allowed.contains m.id

/-- The direct dependencies of a selected mod are taken from all mods that there are, selected or not,
and come before it. A mod with a dependency that there is not is left out, though its other
dependencies are not. -/
def ofMods (available : List Mod) (allowed denied : List String) : LoadOrder :=
  (available.filter (isSelected allowed denied)).foldl (consider available) {}

end LoadOrder

end HookPatch
