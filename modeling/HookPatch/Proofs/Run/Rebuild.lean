import HookPatch.Proofs.Agreement
import HookPatch.Proofs.FileTree.Access
import HookPatch.Proofs.Run.Steps

namespace HookPatch

variable {σ α : Type} {t t' : FileTree}

def OnTrees (t t' : FileTree) (h h' : Host σ) : Prop := h.files = t ∧ h'.files = t'

def Environment.SameScripts (env env' : Environment) : Prop := env.scripts = env'.scripts

def Patching.Agree (t t' : FileTree) (p p' : Patching σ) : Prop :=
  OnTrees t t' p.host p'.host ∧ p.work = p'.work

theorem PatchContext.edit_agree (x : Edit α) :
    Agree (Patching.Agree t t') Eq (edit x : Patch σ EditError α) (edit x) := by
  intro p q ⟨hhosts, hwork⟩ a p' b q' hp hq
  rw [edit] at hp hq
  rw [hwork] at hp
  cases hx : x q.work with
  | error e w => simp [hx] at hp
  | ok c w =>
    rw [hx] at hp hq
    cases hp
    cases hq
    exact ⟨⟨hhosts, rfl⟩, rfl⟩

section Manifest

variable (l : Patcher σ) (t t' : FileTree) {env env' : Environment} (h : env.SameScripts env')

include h

/-- A patch does the same to the image wherever the same scripts are loaded. -/
theorem PatchStep.apply_agree (op : PatchStep) :
    Agree (Patching.Agree t t') (fun _ _ ↦ True) (apply (l.context env) op : Patch σ Failure Unit)
      (apply (l.context env') op) := by
  have hscript : env.script? op.script = env'.script? op.script := by
    rw [Environment.script?, Environment.script?, show _ = _ from h]
  rw [apply, apply, Patcher.context, Patcher.context, hscript]
  cases env'.script? op.script with
  | none =>
    intro p q _ a p' b q' hp hq
    cases hp
  | some source =>
    refine .adaptExcept ?_ _ _
    cases op with
    | softHook target script => exact (PatchContext.edit_agree _).discard
    | arityHook target script => exact (PatchContext.edit_agree _).discard
    | hardHook target script argc => exact (PatchContext.edit_agree _).discard
    | defineFunction target script argc =>
      exact (PatchContext.edit_agree _).mono fun _ _ _ ↦ trivial

theorem Manifest.patch_agree (m : Manifest) :
    Agree (Patching.Agree t t') (fun _ _ ↦ True) ((m.logic : ModLogic σ).patch (l.context env))
      (m.logic.patch (l.context env')) := by
  refine .forM (List.forall₂_same.mpr fun op _ ↦ rfl) ?_
  rintro op _ rfl
  exact PatchStep.apply_agree l t t' h op

end Manifest

section Parts

def Progress.OnTrees (t t' : FileTree) (p p' : Progress σ) : Prop :=
  HookPatch.OnTrees t t' p.host p'.host

open Run

variable {β γ : Type} {Q : α → β → Prop}

theorem note_agree (e e' : Event) :
    Agree (Progress.OnTrees t t') (fun _ _ ↦ True) (note e : Run σ Unit) (note e' : Run σ Unit) := by
  intro p q hR a p' b q' hp hq
  cases hp
  cases hq
  exact ⟨hR, trivial⟩

theorem reading_agree {f : FileTree → Except RunError α} {g : FileTree → Except RunError β}
    (h : ∀ a b, f t = .ok a → g t' = .ok b → Q a b) :
    Agree (Progress.OnTrees t t') Q (reading f : Run σ α) (reading g : Run σ β) := by
  rintro p q ⟨rfl, rfl⟩ a p' b q' hp hq
  obtain ⟨hf, rfl⟩ := reading_eq_ok_iff.mp hp
  obtain ⟨hg, rfl⟩ := reading_eq_ok_iff.mp hq
  exact ⟨⟨rfl, rfl⟩, h a b hf hg⟩

theorem editing_agree (blame blame' : EditError → RunError) (x : Edit Unit) (w : Workspace) :
    Agree (Progress.OnTrees t t') Eq (editing blame x w : Run σ Workspace)
      (editing blame' x w : Run σ Workspace) := by
  rw [editing, editing]
  cases x w with
  | ok _ w' => exact .pure rfl
  | error e w' =>
    intro p q hR a p' b q' hp hq
    cases hp

theorem calling_agree (e e' : Event) (blame blame' : Failure → RunError) {x : Callback σ α}
    {y : Callback σ β} (h : Agree (HookPatch.OnTrees t t') Q x y) :
    Agree (Progress.OnTrees t t') Q (calling e blame x) (calling e' blame' y) := by
  intro p q hR a p' b q' hp hq
  obtain ⟨host, hx, rfl⟩ := calling_eq_ok_iff.mp hp
  obtain ⟨host', hy, rfl⟩ := calling_eq_ok_iff.mp hq
  exact h _ _ hR _ _ _ _ hx hy

end Parts

/-- Two mods of which a rebuild on the trees `t` and `t'` sees the same. -/
structure LoadedMod.Agree (t t' : FileTree) (m m' : LoadedMod σ) : Prop where
  manifest : ∃ manifest : Manifest, m.logic = manifest.logic ∧ m'.logic = manifest.logic ∧
    (manifest.interop = [] ∨ m.mod.id = m'.mod.id)
  scripts : ∀ env env', Environment.load t m.mod = .ok env → Environment.load t' m'.mod = .ok env' →
    env.SameScripts env'

namespace Patcher

open Run

variable {l : Patcher σ} {m m' : LoadedMod σ}

theorem decode_of_load {z : Zstd} {path : Path} {image : Image}
    (h : (Image.load z t path).mapError RunError.image = .ok image) :
    Image.decode z path (t.content path) = .ok image := by
  rw [Image.load] at h
  cases hread : t.read path with
  | error fault => simp [hread, Except.mapError] at h
  | ok content =>
    rw [FileTree.content_eq hread]
    cases hdecode : Image.decode z path content with
    | error e => simp [hread, hdecode, Except.mapError] at h
    | ok image' => simpa [hread, hdecode, Except.mapError] using h

theorem openImage_agree (h : t.content l.config.baseImagePath = t'.content l.config.baseImagePath) :
    Agree (Progress.OnTrees t t') Eq l.openImage l.openImage := by
  refine (reading_agree (Q := Eq) fun image image' himage himage' ↦ ?_).bind fun image _ heq ↦ ?_
  · have hdecode := decode_of_load himage
    rw [h, decode_of_load himage'] at hdecode
    exact (Except.ok.inj hdecode).symm
  · subst heq
    exact editing_agree _ _ _ _

theorem prepare_agree (h : m.Agree t t' m') (image image' : Image) :
    Agree (Progress.OnTrees t t') Environment.SameScripts (prepare image m) (prepare image' m') := by
  obtain ⟨manifest, hlogic, hlogic', -⟩ := h.manifest
  refine (reading_agree h.scripts).bind fun env env' hscripts ↦ ?_
  rw [hlogic, hlogic']
  refine (calling_agree (Q := fun _ _ ↦ True) _ _ _ _ (.pure trivial)).bind fun _ _ _ ↦ ?_
  exact .pure hscripts

theorem registerExport_agree (hid : m.mod.id = m'.mod.id) (work : Workspace) (x : Export) :
    Agree (Progress.OnTrees t t') Eq (l.registerExport m work x) (l.registerExport m' work x) := by
  refine (note_agree _ _).bind fun _ _ _ ↦ ?_
  rw [hid]
  exact editing_agree _ _ _ _

theorem patching_eq_ok_iff {env : Environment} {work work' : Workspace} {host host' : Host σ} :
    l.patching m env work host = .ok work' host' ↔
      m.logic.patch (l.context env) { host, work } = .ok () { host := host', work := work' } := by
  rw [patching, ← context]
  cases m.logic.patch (l.context env) { host, work } with
  | error e p => simp
  | ok u p =>
    cases p
    simp [and_comm]

theorem patching_agree (h : m.Agree t t' m') {env env' : Environment}
    (hscripts : env.SameScripts env') (work : Workspace) :
    Agree (HookPatch.OnTrees t t') Eq (l.patching m env work) (l.patching m' env' work) := by
  obtain ⟨manifest, hlogic, hlogic', -⟩ := h.manifest
  intro host host' hR work₁ host₁ work₂ host₂ hp hq
  rw [patching_eq_ok_iff, hlogic] at hp
  rw [patching_eq_ok_iff, hlogic'] at hq
  have hpatch := Manifest.patch_agree l t t' hscripts manifest
  exact (hpatch { host, work } { host := host', work } ⟨hR, rfl⟩ _ _ _ _ hp hq).1

theorem patch_agree (h : m.Agree t t' m') {env env' : Environment}
    (hscripts : env.SameScripts env') (work : Workspace) :
    Agree (Progress.OnTrees t t') Eq (l.patch work (m, env)) (l.patch work (m', env')) := by
  obtain ⟨manifest, hlogic, hlogic', hid⟩ := h.manifest
  refine (calling_agree _ _ _ _ (patching_agree h hscripts work)).bind fun work work' heq ↦ ?_
  subst heq
  have hget : Agree (Progress.OnTrees t t') (fun _ _ ↦ True) (get : Run σ (Progress σ))
      (get : Run σ (Progress σ)) := fun p q hR a p' b q' hp hq ↦ by
    cases hp
    cases hq
    exact ⟨hR, trivial⟩
  refine hget.bind fun p p' _ ↦ ?_
  rw [hlogic, hlogic']
  change Agree _ _ (manifest.interop.foldlM _ _) (manifest.interop.foldlM _ _)
  -- the id goes into the image with the exports only
  rcases hid with hnone | hid
  · rw [hnone]
    exact .pure rfl
  · refine .foldlM (List.forall₂_same.mpr fun x _ ↦ rfl) ?_ rfl
    rintro work _ x _ rfl rfl
    exact registerExport_agree hid work x

theorem forall₂_zip {α α' β β' : Type} {A : α → α' → Prop} {B : β → β' → Prop} {as : List α}
    {as' : List α'} {bs : List β} {bs' : List β'} (ha : List.Forall₂ A as as')
    (hb : List.Forall₂ B bs bs') :
    List.Forall₂ (fun p p' ↦ A p.1 p'.1 ∧ B p.2 p'.2) (as.zip bs) (as'.zip bs') := by
  induction ha generalizing bs bs' with
  | nil => exact .nil
  | cons hA _ ih =>
    cases hb with
    | nil => exact .nil
    | cons hB hb => exact .cons ⟨hA, hB⟩ (ih hb)

/-- Rebuilds for which the base images and the mods agree give the same image. -/
theorem rebuild_agree (hbase : t.content l.config.baseImagePath = t'.content l.config.baseImagePath)
    {loaded loaded' : List (LoadedMod σ)} (h : List.Forall₂ (LoadedMod.Agree t t') loaded loaded') :
    Agree (Progress.OnTrees t t') Eq (l.rebuild loaded) (l.rebuild loaded') := by
  refine (openImage_agree hbase).bind fun work _ heq ↦ ?_
  subst heq
  refine (Agree.mapM h fun m m' h ↦ prepare_agree h work.image work.image).bind
    fun environments environments' henvironments ↦ ?_
  have hzip := forall₂_zip h henvironments
  refine (Agree.foldlM hzip (fun work work' m m' heq h ↦ ?_) (rfl : work = work)).bind
    fun work _ heq ↦ ?_
  · subst heq
    exact patch_agree h.1 h.2 work
  · subst heq
    refine (editing_agree _ _ _ work).bind fun work work' heq ↦ ?_
    exact .pure (congrArg Workspace.image heq)

end Patcher

end HookPatch
