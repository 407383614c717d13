import HookPatch.Proofs.FileTree.Access
import HookPatch.Proofs.Run.Steps

namespace HookPatch

structure Config.SameOutput (c : Config) (t t' : FileTree) : Prop where
  image : t'.entryAt? c.patchedImagePath = t.entryAt? c.patchedImagePath
  fingerprint : t'.entryAt? c.fingerprintPath = t.entryAt? c.fingerprintPath

namespace Config.SameOutput

variable {c : Config} {t t' t'' : FileTree}

theorem refl (t : FileTree) : c.SameOutput t t := ⟨rfl, rfl⟩

theorem trans (h : c.SameOutput t t') (h' : c.SameOutput t' t'') : c.SameOutput t t'' :=
  ⟨h'.image.trans h.image, h'.fingerprint.trans h.fingerprint⟩

end Config.SameOutput

variable {σ α : Type} {c : Config}

/-- Whether code of a mod leaves the patched image and the stored fingerprint alone, and comes only
to values as `Q` says. -/
def Callback.Spares (c : Config) (Q : α → Prop) (x : Callback σ α) : Prop :=
  Meets (fun h h' ↦ c.SameOutput h.files h'.files) Q x

structure ModLogic.Spares (c : Config) (logic : ModLogic σ) : Prop where
  prepare : ∀ env image, Callback.Spares c (fun _ ↦ True) (logic.prepare env image)
  patch : ∀ context,
    Meets (fun p p' ↦ c.SameOutput p.host.files p'.host.files) (fun _ ↦ True) (logic.patch context)
  start : ∀ m, Callback.Spares c (fun _ ↦ True) (logic.start m)

def Catalog.Spares (c : Config) (catalog : Catalog σ) : Prop :=
  ∀ r ∈ catalog.entries, ∀ m, Callback.Spares c (ModLogic.Spares c) (r.build m)

section Manifest

theorem PatchContext.edit_host (x : Edit α) (p : Patching σ) :
    (stateAfter (PatchContext.edit x) p).host = p.host := by
  rw [stateAfter, PatchContext.edit]
  cases x p.work <;> rfl

theorem PatchStep.apply_host (context : PatchContext) (op : PatchStep) (p : Patching σ) :
    (stateAfter (PatchStep.apply context op) p).host = p.host := by
  rw [PatchStep.apply]
  split
  · rfl
  · rw [stateAfter_adaptExcept]
    cases op with
    | softHook => rw [stateAfter_discard]; exact PatchContext.edit_host _ p
    | arityHook => rw [stateAfter_discard]; exact PatchContext.edit_host _ p
    | hardHook => rw [stateAfter_discard]; exact PatchContext.edit_host _ p
    | defineFunction => exact PatchContext.edit_host _ p

theorem Manifest.logic_spares (m : Manifest) : ModLogic.Spares c (m.logic : ModLogic σ) where
  prepare env image := .pure (fun h ↦ .refl h.files) trivial
  patch context := by
    refine Meets.forM (fun p ↦ .refl p.host.files) (fun p q r ↦ .trans) fun op _ ↦ ?_
    refine .of_stateAfter fun p ↦ ?_
    rw [PatchStep.apply_host]
    exact .refl _
  start m := .pure (fun h ↦ .refl h.files) trivial

theorem Catalog.instantiate_spares {catalog : Catalog σ} (h : catalog.Spares c) (m : Mod) :
    Callback.Spares c (ModLogic.Spares c) (catalog.instantiate m) := by
  cases hfind : catalog.find? m.id with
  | some r =>
    have hbuild := h r (List.mem_of_find?_eq_some hfind) m
    refine ⟨fun p logic p' hok ↦ ?_, fun p e p' herror ↦ ?_⟩
    · rw [instantiate, hfind] at hok
      exact hbuild.ok p logic p' hok
    · rw [instantiate, hfind] at herror
      exact hbuild.error p e p' herror
  | none =>
    refine ⟨fun p logic p' hok ↦ ?_, fun p e p' herror ↦ ?_⟩
    · simp only [instantiate, hfind] at hok
      split at hok
      · split at hok
        · cases hok
        · cases hok
          exact ⟨.refl _, Manifest.logic_spares _⟩
      · cases hok
    · simp only [instantiate, hfind] at herror
      split at herror
      · split at herror <;> cases herror
        exact .refl _
      · cases herror
        exact .refl _

end Manifest

/-- Events that neither write the patched image nor decide to use the one that there is. -/
def Event.isQuiet : Event → Bool
  | .copy | .reuse _ | .build _ => false
  | _ => true

/-- What a part of a run does that leaves the patched image and the stored fingerprint alone. -/
structure Quiet (c : Config) (p p' : Progress σ) : Prop where
  events : ∃ es, p'.events = p.events ++ es ∧ ∀ e ∈ es, e.isQuiet
  output : c.SameOutput p.host.files p'.host.files

namespace Quiet

theorem refl (p : Progress σ) : Quiet c p p := ⟨⟨[], by simp⟩, .refl _⟩

theorem trans (p q r : Progress σ) (h : Quiet c p q) (h' : Quiet c q r) : Quiet c p r := by
  obtain ⟨es, hes, hquiet⟩ := h.events
  obtain ⟨es', hes', hquiet'⟩ := h'.events
  refine ⟨⟨es ++ es', by rw [hes', hes, List.append_assoc], fun e he ↦ ?_⟩, h.output.trans h'.output⟩
  exact (List.mem_append.mp he).elim (hquiet e) (hquiet' e)

end Quiet

namespace Run

theorem note_quiet {e : Event} (he : e.isQuiet) :
    Meets (Quiet c) (fun _ ↦ True) (note e : Run σ Unit) :=
  .of_stateAfter fun p ↦ ⟨⟨[e], rfl, by simpa using he⟩, .refl _⟩

theorem reading_quiet (f : FileTree → Except RunError α) :
    Meets (Quiet c) (fun _ ↦ True) (reading f : Run σ α) := by
  refine .of_stateAfter fun p ↦ ?_
  rw [stateAfter, reading]
  cases f p.host.files <;> exact .refl p

theorem surveying_quiet (f : FileTree → Survey α) :
    Meets (Quiet c) (fun _ ↦ True) (surveying f : Run σ α) := by
  refine .of_stateAfter fun p ↦ ?_
  rw [stateAfter, surveying]
  cases f p.host.files p.host.warnings <;> exact ⟨⟨[], by simp [resultState]⟩, .refl _⟩

theorem editing_quiet (blame : EditError → RunError) (x : Edit Unit) (w : Workspace) :
    Meets (Quiet c) (fun _ ↦ True) (editing blame x w : Run σ Workspace) := by
  refine .of_stateAfter fun p ↦ ?_
  rw [stateAfter, editing]
  cases x w <;> exact .refl p

theorem calling_quiet {Q : α → Prop} {e : Event} (he : e.isQuiet) (blame : Failure → RunError)
    {x : Callback σ α} (hx : Callback.Spares c Q x) : Meets (Quiet c) Q (calling e blame x) := by
  refine ⟨fun p a p' h ↦ ?_, fun p r p' h ↦ ?_⟩
  · obtain ⟨host, hcall, rfl⟩ := calling_eq_ok_iff.mp h
    obtain ⟨hspares, hQ⟩ := hx.ok _ _ _ hcall
    exact ⟨⟨⟨[e], rfl, by simpa using he⟩, hspares⟩, hQ⟩
  · obtain ⟨f, host, hcall, -, rfl⟩ := calling_eq_error_iff.mp h
    exact ⟨⟨[e], rfl, by simpa using he⟩, hx.error _ _ _ hcall⟩

end Run

namespace Patcher

open Run

variable {l : Patcher σ}

theorem instantiate_quiet (h : l.catalog.Spares c) (m : Mod) :
    Meets (Quiet c) (fun loaded ↦ loaded.logic.Spares c) (l.instantiate m) :=
  (calling_quiet rfl _ (Catalog.instantiate_spares h m)).bind Quiet.trans fun _ hlogic ↦
    .pure Quiet.refl hlogic

theorem start_quiet {m : LoadedMod σ} (h : m.logic.Spares c) :
    Meets (Quiet c) (fun _ ↦ True) (start m) :=
  calling_quiet rfl _ (h.start m.mod)

theorem openImage_quiet : Meets (Quiet c) (fun _ ↦ True) l.openImage :=
  (reading_quiet _).bind Quiet.trans fun _ _ ↦ editing_quiet _ _ _

theorem prepare_quiet {m : LoadedMod σ} (h : m.logic.Spares c) (image : Image) :
    Meets (Quiet c) (fun _ ↦ True) (prepare image m) :=
  (reading_quiet _).bind Quiet.trans fun env _ ↦
    (calling_quiet rfl _ (h.prepare env image)).bind Quiet.trans fun _ _ ↦ .pure Quiet.refl trivial

theorem patching_spares {m : LoadedMod σ} (h : m.logic.Spares c) (env : Environment)
    (work : Workspace) : Callback.Spares c (fun _ ↦ True) (l.patching m env work) := by
  refine .of_stateAfter fun host ↦ ?_
  let context : PatchContext :=
    { strictness := l.strictness, environment := env, placeholder := l.config.placeholder }
  have hpatch := (h.patch context).stateAfter { host, work }
  rw [stateAfter] at hpatch ⊢
  simp only [patching]
  cases heq : m.logic.patch context { host, work } <;>
    simpa only [heq, context, resultState] using hpatch

theorem patch_quiet {m : LoadedMod σ} (h : m.logic.Spares c) (work : Workspace) (env : Environment) :
    Meets (Quiet c) (fun _ ↦ True) (l.patch work (m, env)) := by
  refine (calling_quiet rfl _ (patching_spares h env work)).bind Quiet.trans fun work _ ↦ ?_
  have hget : Meets (Quiet c) (fun _ ↦ True) (get : Run σ (Progress σ)) :=
    .of_stateAfter fun p ↦ .refl p
  refine hget.bind Quiet.trans fun p _ ↦ ?_
  refine Meets.foldlM Quiet.refl Quiet.trans (fun work x _ ↦ ?_) work
  exact (note_quiet rfl).bind Quiet.trans fun _ _ ↦ editing_quiet _ _ work

theorem rebuild_quiet {loaded : List (LoadedMod σ)} (h : ∀ m ∈ loaded, m.logic.Spares c) :
    Meets (Quiet c) (fun _ ↦ True) (l.rebuild loaded) := by
  refine openImage_quiet.bind Quiet.trans fun work _ ↦ ?_
  refine (Meets.mapM Quiet.refl Quiet.trans fun m hm ↦
    prepare_quiet (h m hm) work.image).bind Quiet.trans fun environments _ ↦ ?_
  refine (Meets.foldlM Quiet.refl Quiet.trans (fun work m hm ↦ ?_) work).bind Quiet.trans
    fun work _ ↦ ?_
  · exact patch_quiet (h m.1 (List.of_mem_zip hm).1) work m.2
  · exact (editing_quiet _ _ work).bind Quiet.trans fun work _ ↦ .pure Quiet.refl trivial

end Patcher

end HookPatch
