import HookPatch.Run.Phases

namespace HookPatch

structure ImageChoice where
  image : Path
  modded : Bool
  awaitsUser : Bool
  deriving DecidableEq, Repr

def writeReport (t : FileTree) (path : Path) (report : String) : FileTree :=
  match t.makePath (path.parent?.getD ⟨""⟩) with
  | (t, .error _) => t
  | (t, .ok _) => (t.writeText path report).toOption.getD t

namespace Patcher

variable {σ : Type} (l : Patcher σ)

def fallBack (e : RunError) (p : Progress σ) : ImageChoice × Progress σ :=
  let files := writeReport p.host.files l.config.reportPath e.failure.report
  ({ image := l.config.baseImage, modded := false, awaitsUser := l.config.confirmFailure },
    { p with host := { p.host with files } })

def choose (p : Progress σ) : ImageChoice × Progress σ :=
  match l.run p with
  | .ok outcome p => ({ image := outcome.image, modded := true, awaitsUser := false }, p)
  | .error e p => l.fallBack e p

end Patcher

end HookPatch
