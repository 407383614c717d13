import HookPatch.Proofs.Outcomes
import HookPatch.Run.Phases

namespace HookPatch

variable {σ α β : Type}

namespace Progress

def withFiles (p : Progress σ) (files : FileTree) : Progress σ :=
  { p with host := { p.host with files } }

def noted (p : Progress σ) (e : Event) : Progress σ := { p with events := p.events ++ [e] }

end Progress

namespace Run

theorem note_bind (e : Event) (f : Unit → Run σ α) (p : Progress σ) :
    (note e >>= f) p = f () (p.noted e) := rfl

theorem writing_bind (x : EStateM RunError FileTree α) (f : α → Run σ β)
    (p : Progress σ) :
    (∃ e t, x p.host.files = .error e t ∧ (writing x >>= f) p = .error e (p.withFiles t)) ∨
    ∃ a t, x p.host.files = .ok a t ∧ (writing x >>= f) p = f a (p.withFiles t) := by
  change (∃ e t, _ ∧ EStateM.bind (writing x) f p = _) ∨
    ∃ a t, _ ∧ EStateM.bind (writing x) f p = _
  rw [EStateM.bind, writing]
  cases x p.host.files with
  | error e t => exact .inl ⟨e, t, rfl, rfl⟩
  | ok a t => exact .inr ⟨a, t, rfl, rfl⟩

theorem reading_bind (g : FileTree → Except RunError α) (f : α → Run σ β)
    (p : Progress σ) : (reading g >>= f) p =
      match g p.host.files with
      | .error e => .error e p
      | .ok a => f a p := by
  change EStateM.bind (reading g) f p = _
  rw [EStateM.bind, reading]
  cases g p.host.files <;> rfl

theorem reading_eq_ok_iff {f : FileTree → Except RunError α} {a : α} {p p' : Progress σ} :
    reading f p = .ok a p' ↔ f p.host.files = .ok a ∧ p = p' := by
  rw [reading]
  cases f p.host.files <;> simp

theorem surveying_eq_ok_iff {f : FileTree → Survey α} {a : α} {p p' : Progress σ} :
    surveying f p = .ok a p' ↔ ∃ warnings, f p.host.files p.host.warnings = .ok a warnings ∧
      { p with host := { p.host with warnings } } = p' := by
  rw [surveying]
  cases f p.host.files p.host.warnings <;> simp [and_assoc]

theorem writing_eq_ok_iff {x : EStateM RunError FileTree α} {a : α} {p p' : Progress σ} :
    writing x p = .ok a p' ↔ ∃ t, x p.host.files = .ok a t ∧ p.withFiles t = p' := by
  rw [writing]
  cases x p.host.files <;> simp [Progress.withFiles, and_assoc]

theorem writing_eq_error_iff {x : EStateM RunError FileTree α} {e : RunError} {p p' : Progress σ} :
    writing x p = .error e p' ↔ ∃ t, x p.host.files = .error e t ∧ p.withFiles t = p' := by
  rw [writing]
  cases x p.host.files <;> simp [Progress.withFiles, and_assoc]

section Calling

variable {e : Event} {blame : Failure → RunError} {x : Callback σ α} {p p' : Progress σ}

theorem calling_eq : calling e blame x p =
    match x p.host with
    | .error f host => .error (blame f) { host, events := p.events ++ [e] }
    | .ok a host => .ok a { host, events := p.events ++ [e] } := rfl

theorem calling_eq_ok_iff {a : α} : calling e blame x p = .ok a p' ↔
    ∃ host, x p.host = .ok a host ∧ { host, events := p.events ++ [e] } = p' := by
  rw [calling_eq]
  cases x p.host <;> simp [and_assoc]

theorem calling_eq_error_iff {r : RunError} : calling e blame x p = .error r p' ↔
    ∃ f host, x p.host = .error f host ∧ blame f = r ∧ { host, events := p.events ++ [e] } = p' := by
  rw [calling_eq]
  cases x p.host <;> simp [and_assoc]

end Calling

end Run

namespace Patcher

def context (l : Patcher σ) (env : Environment) : PatchContext where
  strictness := l.strictness
  environment := env
  placeholder := l.config.placeholder

variable {l : Patcher σ} {m : LoadedMod σ} {env : Environment} {work : Workspace} {h : Host σ}
  {p : Patching σ}

theorem patching_ok {u : Unit} (hpatch : m.logic.patch (l.context env) { host := h, work } = .ok u p) :
    l.patching m env work h = .ok p.work p.host := by
  rw [context] at hpatch
  rw [patching, hpatch]

theorem patching_error {e : Failure}
    (hpatch : m.logic.patch (l.context env) { host := h, work } = .error e p) :
    l.patching m env work h = .error e p.host := by
  rw [context] at hpatch
  rw [patching, hpatch]

end Patcher

end HookPatch
