import HookPatch.Engine.Export
import HookPatch.Mod.Environment
import HookPatch.Warning

namespace HookPatch

structure Host (σ : Type) where
  files : FileTree
  warnings : List Warning := []
  state : σ

/-- Code of a mod that may fail. What it has done stays done. -/
abbrev Callback (σ α : Type) := EStateM Failure (Host σ) α

structure Patching (σ : Type) where
  host : Host σ
  work : Workspace

abbrev Patch (σ ε α : Type) := EStateM ε (Patching σ) α

structure PatchContext where
  strictness : Assembly.Strictness
  environment : Environment
  placeholder : String

namespace PatchContext

variable {σ : Type} (c : PatchContext)

def edit (x : Edit α) : Patch σ EditError α := fun p ↦
  match x p.work with
  | .ok a work => .ok a { p with work }
  | .error e work => .error e { p with work }

def softHook (code source : String) : Patch σ EditError String :=
  edit (Engine.softHook c.strictness code source c.placeholder)

def arityHook (function source : String) : Patch σ EditError String :=
  edit (Engine.arityHook c.strictness function source c.placeholder)

def hardHook (function source : String) (argc : UInt16) : Patch σ EditError String :=
  edit (Engine.hardHook c.strictness function source argc c.placeholder)

def defineFunction (name source : String) (argc : UInt16) : Patch σ EditError Unit :=
  edit (Engine.defineFunction c.strictness name source argc)

def withScript (use : ScriptUse) (file name : String) (f : String → Patch σ EditError Unit) :
    Patch σ EditError Unit :=
  match c.environment.script? file with
  | some source => f source
  | none =>
    modify fun p ↦
      { p with
        host := { p.host with warnings := p.host.warnings ++ [.missingScript use name file] } }

def softHookScript (file code : String) : Patch σ EditError Unit :=
  c.withScript .softHook file code fun source ↦ discard (c.softHook code source)

def hardHookScript (file function : String) : Patch σ EditError Unit :=
  c.withScript .arityHook file function fun source ↦ discard (c.arityHook function source)

def defineScript (file name : String) (argc : UInt16) : Patch σ EditError Unit :=
  c.withScript .defineFunction file name fun source ↦ c.defineFunction name source argc

end PatchContext

structure ModLogic (σ : Type) where
  /-- Before any mod patches, if the image is rebuilt. -/
  prepare : Environment → Image → Callback σ Unit := fun _ _ ↦ pure ()
  patch : PatchContext → Patch σ Failure Unit
  /-- After all mods have patched, in every run. -/
  start : Mod → Callback σ Unit := fun _ ↦ pure ()
  exports : Host σ → List Export := fun _ ↦ []

end HookPatch
