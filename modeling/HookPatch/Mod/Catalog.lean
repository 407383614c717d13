import HookPatch.Mod.Manifest

namespace HookPatch

structure Registration (σ : Type) where
  id : String
  buildVersion : Option String := none
  build : Mod → Callback σ (ModLogic σ)

structure Catalog (σ : Type) where
  /-- At most one entry for an id. -/
  entries : List (Registration σ) := []

namespace Catalog

variable {σ : Type}

def find? (c : Catalog σ) (id : String) : Option (Registration σ) := c.entries.find? (·.id = id)

def contains (c : Catalog σ) (id : String) : Bool := (c.find? id).isSome

def buildVersion? (c : Catalog σ) (id : String) : Option String :=
  (c.find? id).bind (·.buildVersion)

def register (c : Catalog σ) (r : Registration σ) : Catalog σ :=
  { entries := r :: c.entries.filter (·.id ≠ r.id) }

def ofList (rs : List (Registration σ)) : Catalog σ × List Warning :=
  rs.foldl (fun (c, warnings) r ↦
    (c.register r,
      if c.contains r.id then warnings ++ [.replacedRegistration r.id] else warnings)) ({}, [])

def unimplemented (m : Mod) : Failure where
  message := "no implementation registered for mod `" ++ m.id ++ "` and no " ++ Mod.manifestName ++
    " in " ++ m.directory.text

/-- The logic of a mod: what is registered for it, or else what its manifest says. -/
def instantiate (c : Catalog σ) (m : Mod) : Callback σ (ModLogic σ) := fun h ↦
  match c.find? m.id with
  | some r => r.build m h
  | none =>
    if h.files.isFile m.manifestPath then
      match Manifest.load h.files m.manifestPath with
      | .error e => .error e.failure h
      | .ok manifest => .ok manifest.logic h
    else .error (unimplemented m) h

end Catalog

end HookPatch
