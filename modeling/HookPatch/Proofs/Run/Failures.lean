import HookPatch.Proofs.Run.History

namespace HookPatch

variable {σ : Type}

inductive Plan (σ : Type)
  | copy
  | reuse (mods : List Mod) (f : Fingerprint) (loaded : List (LoadedMod σ))
  | build (mods : List Mod) (f : Fingerprint) (loaded : List (LoadedMod σ)) (image : Image)

/-- Whether the patched image and the stored fingerprint are in different places, seen from the
working directory. -/
def Config.OutputsApartAt (c : Config) (workingDirectory : Location) : Prop :=
  c.patchedImagePath.locationFrom workingDirectory ≠ c.fingerprintPath.locationFrom workingDirectory

def Plan.Spares (c : Config) : Plan σ → Prop
  | copy => True
  | reuse _ _ loaded | build _ _ loaded _ => ∀ m ∈ loaded, m.logic.Spares c

namespace Patcher

open Run

variable (l : Patcher σ)

def planFor (mods : List Mod) : Run σ (Plan σ) := do
  let f ← surveying fun t ↦ l.fingerprint t mods
  let loaded ← mods.mapM l.instantiate
  let stale ← reading (l.isStale f)
  if stale then
    let image ← l.rebuild loaded
    return .build mods f loaded image
  else return .reuse mods f loaded

/-- The part of a run that writes nothing. -/
def planning : Run σ (Plan σ) := do
  let found := (← get).host.files.isFile l.config.baseImagePath
  if !found then throw (.missingBaseImage l.config.baseImagePath)
  let order ← surveying l.loadOrder
  if order.mods.isEmpty then return .copy else l.planFor order.mods

def concluding (mods : List Mod) (f : Fingerprint) (loaded : List (LoadedMod σ)) (rebuilt : Bool) :
    Run σ Outcome := do
  loaded.forM start
  writing (f.save l.config.fingerprintPath)
  return { image := l.config.patchedImage, rebuilt, mods := mods.map Mod.id }

/-- The part of a run that writes. -/
def finishing : Plan σ → Run σ Outcome
  | .copy => l.runPlain
  | .reuse mods f loaded => do
    note (.reuse f)
    l.concluding mods f loaded false
  | .build mods f loaded image => do
    writing (image.store l.zstd l.config.imageFormat l.config.patchedImagePath)
    note (.build f)
    l.concluding mods f loaded true

theorem runMods_eq_planFor (mods : List Mod) : l.runMods mods = l.planFor mods >>= l.finishing := by
  simp only [runMods, planFor, provideImage, bind_assoc]
  refine bind_congr fun f ↦ bind_congr fun loaded ↦ bind_congr fun stale ↦ ?_
  cases stale with
  | true => simp only [if_true, bind_assoc, pure_bind, finishing, concluding]
  | false =>
    simp only [if_false, Bool.false_eq_true, bind_assoc, pure_bind, finishing, concluding]

theorem run_eq_planning : l.run = l.planning >>= l.finishing := by
  have horder : (surveying l.loadOrder >>= fun order ↦
      if order.mods.isEmpty then l.runPlain else l.runMods order.mods) =
      (surveying l.loadOrder >>= fun order ↦
        if order.mods.isEmpty then pure .copy else l.planFor order.mods) >>= l.finishing := by
    rw [bind_assoc]
    refine bind_congr fun order ↦ ?_
    split
    · rw [pure_bind, finishing]
    · exact l.runMods_eq_planFor order.mods
  rw [run, planning]
  simp only [bind_assoc]
  refine bind_congr fun p ↦ ?_
  cases p.host.files.isFile l.config.baseImagePath with
  | false => rfl
  | true => exact horder

variable {l}

section Spares

variable {c : Config}

theorem planFor_quiet (h : l.catalog.Spares c) (mods : List Mod) :
    Meets (Quiet c) (Plan.Spares c) (l.planFor mods) := by
  refine (surveying_quiet _).bind Quiet.trans fun f _ ↦ ?_
  refine (Meets.mapM Quiet.refl Quiet.trans fun m _ ↦ instantiate_quiet h m).bind Quiet.trans
    fun loaded hloaded ↦ ?_
  refine (reading_quiet _).bind Quiet.trans fun stale _ ↦ ?_
  cases stale with
  | true =>
    exact (rebuild_quiet hloaded).bind Quiet.trans fun _ _ ↦ .pure Quiet.refl hloaded
  | false => exact .pure Quiet.refl hloaded

theorem planning_quiet (h : l.catalog.Spares c) : Meets (Quiet c) (Plan.Spares c) l.planning := by
  have horder : Meets (Quiet c) (Plan.Spares c) (surveying l.loadOrder >>= fun order ↦
      if order.mods.isEmpty then pure .copy else l.planFor order.mods) := by
    refine (surveying_quiet _).bind Quiet.trans fun order _ ↦ ?_
    split
    · exact .pure Quiet.refl trivial
    · exact planFor_quiet h order.mods
  have hget : Meets (Quiet c) (fun _ ↦ True) (get : Run σ (Progress σ)) :=
    .of_stateAfter fun p ↦ .refl p
  refine hget.bind Quiet.trans fun p _ ↦ ?_
  cases p.host.files.isFile l.config.baseImagePath with
  | true => exact horder
  | false =>
    refine ⟨fun p a q hthrow ↦ ?_, fun p e q hthrow ↦ ?_⟩
    · cases hthrow
    · cases hthrow
      exact .refl p

end Spares

end Patcher

/-- Whether a run can only fail so before it writes. -/
def RunError.precedesWriting : RunError → Bool
  | missingBaseImage _ | modFailed .. | stepFailed .. => true
  | _ => false

namespace Patcher

open Run

variable {l : Patcher σ} {p q : Progress σ} {e : RunError}

theorem start_error {loaded : List (LoadedMod σ)} (h : loaded.forM start p = .error e q) :
    ∃ id cause, e = .startFailed id cause := by
  induction loaded generalizing p with
  | nil => cases h
  | cons m loaded ih =>
    rcases bind_eq_error_iff.mp h with hstart | ⟨_, p', -, hrest⟩
    · obtain ⟨cause, _, -, rfl, -⟩ := calling_eq_error_iff.mp hstart
      exact ⟨_, _, rfl⟩
    · exact ih hrest

theorem save_error {f : Fingerprint} {path : Path} {t t' : FileTree}
    (h : f.save path t = .error e t') : ∃ path, e = .inaccessible path := by
  rw [Fingerprint.save_eq] at h
  split at h
  · cases h
    exact ⟨_, rfl⟩
  · split at h
    · cases h
      exact ⟨_, rfl⟩
    · cases h

/-- Once a run writes, it only fails over the mods that start, which leave the outputs alone, or over
a file. -/
theorem concluding_error {mods : List Mod} {f : Fingerprint} {loaded : List (LoadedMod σ)}
    {rebuilt : Bool} (hloaded : ∀ m ∈ loaded, m.logic.Spares l.config)
    (h : l.concluding mods f loaded rebuilt p = .error e q) :
    (∃ path, e = .inaccessible path) ∨
      (∃ id cause, e = .startFailed id cause) ∧ l.config.SameOutput p.host.files q.host.files := by
  have hquiet : Meets (Quiet l.config) (fun _ ↦ True) (loaded.forM start) :=
    Meets.forM Quiet.refl Quiet.trans fun m hm ↦ start_quiet (hloaded m hm)
  rcases bind_eq_error_iff.mp h with hstart | ⟨_, p', -, h⟩
  · exact .inr ⟨start_error hstart, (hquiet.error _ _ _ hstart).output⟩
  rcases bind_eq_error_iff.mp h with hwrite | ⟨_, p'', -, h⟩
  · obtain ⟨t, hsave, -⟩ := writing_eq_error_iff.mp hwrite
    exact .inl (save_error hsave)
  · cases h

theorem runPlain_error (h : l.runPlain p = .error e q) : ∃ path, e = .inaccessible path := by
  rcases bind_eq_error_iff.mp h with hwrite | ⟨_, p', -, h⟩
  · obtain ⟨t, hcopy, -⟩ := writing_eq_error_iff.mp hwrite
    rw [copyBase_eq] at hcopy
    split at hcopy <;> cases hcopy
    exact ⟨_, rfl⟩
  rcases bind_eq_error_iff.mp h with hnote | ⟨_, p'', -, h⟩
  · cases hnote
  rcases bind_eq_error_iff.mp h with hwrite | ⟨_, _, -, h⟩
  · obtain ⟨t, hforget, -⟩ := writing_eq_error_iff.mp hwrite
    rw [Fingerprint.forget] at hforget
    split at hforget <;> cases hforget
    exact ⟨_, rfl⟩
  · cases h

theorem finishing_error {plan : Plan σ}
    (hapart : l.config.OutputsApartAt p.host.files.workingDirectory)
    (hplan : plan.Spares l.config) (h : l.finishing plan p = .error e q) :
    (∃ path, e = .inaccessible path) ∨ (∃ cause, e = .image cause) ∨
      (∃ id cause, e = .startFailed id cause) ∧
        q.host.files.entryAt? l.config.fingerprintPath =
          p.host.files.entryAt? l.config.fingerprintPath := by
  cases plan with
  | copy => exact .inl (runPlain_error h)
  | reuse mods f loaded =>
    rw [finishing, note_bind] at h
    rcases concluding_error hplan h with hpath | ⟨hstart, hsame⟩
    · exact .inl hpath
    · exact .inr (.inr ⟨hstart, hsame.fingerprint⟩)
  | build mods f loaded image =>
    rw [finishing] at h
    rcases writing_bind (image.store l.zstd l.config.imageFormat l.config.patchedImagePath) _ p with
      ⟨e', t, hstore, heq⟩ | ⟨_, t, hstore, heq⟩
    · rw [heq] at h
      cases h
      rw [Image.store] at hstore
      split at hstore <;> cases hstore
      exact .inr (.inl ⟨_, rfl⟩)
    · obtain ⟨_, -, hwrite⟩ := Image.store_eq_ok hstore
      rw [heq, note_bind] at h
      rcases concluding_error hplan h with hpath | ⟨hstart, hsame⟩
      · exact .inl hpath
      · have hother := FileTree.entryAt?_write_other hwrite hapart.symm
        exact .inr (.inr ⟨hstart, hsame.fingerprint.trans hother⟩)

/-- A run that fails before it writes leaves the patched image and the stored fingerprint as they
were. If a mod fails to start, the run leaves the stored fingerprint as it was. -/
theorem run_failed (hspares : l.catalog.Spares l.config) (p : Progress σ)
    (hapart : ∀ plan q, l.planning p = .ok plan q →
      l.config.OutputsApartAt q.host.files.workingDirectory) :
    (∀ e q, l.planning p = .error e q →
      l.run p = .error e q ∧ l.config.SameOutput p.host.files q.host.files) ∧
    (∀ e q, l.run p = .error e q → e.precedesWriting →
      l.config.SameOutput p.host.files q.host.files) ∧
    ∀ id cause q, l.run p = .error (.startFailed id cause) q →
      q.host.files.entryAt? l.config.fingerprintPath =
        p.host.files.entryAt? l.config.fingerprintPath := by
  have hplanning := planning_quiet hspares
  refine ⟨?_, ?_, ?_⟩
  · intro e q hplan
    rw [run_eq_planning, bind_error hplan]
    exact ⟨rfl, (hplanning.error _ _ _ hplan).output⟩
  · intro e q hrun he
    rw [run_eq_planning] at hrun
    rcases bind_eq_error_iff.mp hrun with hplan | ⟨plan, p', hplan, hfinish⟩
    · exact (hplanning.error _ _ _ hplan).output
    · obtain ⟨-, hloaded⟩ := hplanning.ok _ _ _ hplan
      obtain ⟨path, rfl⟩ | ⟨cause, rfl⟩ | ⟨⟨id, cause, rfl⟩, -⟩ :=
        finishing_error (hapart plan p' hplan) hloaded hfinish
      all_goals cases he
  · intro id cause q hrun
    rw [run_eq_planning] at hrun
    rcases bind_eq_error_iff.mp hrun with hplan | ⟨plan, p', hplan, hfinish⟩
    · exact (hplanning.error _ _ _ hplan).output.fingerprint
    · obtain ⟨hquiet, hloaded⟩ := hplanning.ok _ _ _ hplan
      obtain ⟨path, he⟩ | ⟨cause, he⟩ | ⟨-, hsame⟩ :=
        finishing_error (hapart plan p' hplan) hloaded hfinish
      · cases he
      · cases he
      · exact hsame.trans hquiet.output.fingerprint

section Example

def brokenMod : Registration Bool where
  id := "m"
  build _ := pure {
    patch := fun _ p ↦ if p.host.state then .error { message := "" } p else .ok () p
    start := fun _ h ↦ .error { message := "" } h }

def brokenPatcher : Patcher Bool where
  config := {}
  zstd := Image.quotingZstd
  catalog := { entries := [brokenMod] }
  exeName := ""

def staleImage : ByteArray := "\x7b\"code\":[\x7b\"name\":\"a\"\x7d]\x7d".toUTF8

def staleFingerprint : ByteArray := "0".toUTF8

/-- A tree with a base image and one mod, in which an earlier run has left a patched image and a
fingerprint. -/
def brokenRun (failsToPatch : Bool) : Progress Bool where
  host := {
    files := {
      entries := (["data.win"], .file "\x7b\"code\":[]\x7d".toUTF8) ::
        (["cache.win"], .file staleImage) ::
        (["bcpatch", "cache.fingerprint"], .file staleFingerprint) ::
        History.modOnly.files.entries }
    state := failsToPatch }

theorem broken_spares : brokenPatcher.catalog.Spares brokenPatcher.config := by
  intro r hr m
  obtain rfl : r = brokenMod := by simpa [brokenPatcher] using hr
  refine .pure (fun h ↦ .refl h.files) ⟨fun env image ↦ ?_, fun context ↦ ?_, fun m ↦ ?_⟩
  · exact .pure (fun h ↦ .refl h.files) trivial
  · refine .of_stateAfter fun p ↦ ?_
    cases hstate : p.host.state <;> simpa [stateAfter, hstate] using .refl p.host.files
  · exact .of_stateAfter fun h ↦ .refl h.files

theorem run_failed_broken :
    (∃ e q, e = .modFailed "m" .patch { message := "" } ∧
      brokenPatcher.run (brokenRun true) = .error e q ∧
      q.host.files.entryAt? brokenPatcher.config.patchedImagePath = some (.file staleImage) ∧
      q.host.files.entryAt? brokenPatcher.config.fingerprintPath =
        some (.file staleFingerprint)) ∧
    ∃ e q, e = .startFailed "m" { message := "" } ∧
      brokenPatcher.run (brokenRun false) = .error e q ∧
      q.host.files.entryAt? brokenPatcher.config.fingerprintPath =
        some (.file staleFingerprint) := by
  have hpatch : failure? brokenPatcher.planning (brokenRun true) =
      some (.modFailed "m" .patch { message := "" }) := by
    decide +kernel
  have hstart : failure? brokenPatcher.run (brokenRun false) =
      some (.startFailed "m" { message := "" }) := by
    decide +kernel
  obtain ⟨q, hpatch⟩ := failure?_eq_some.mp hpatch
  obtain ⟨q', hstart⟩ := failure?_eq_some.mp hstart
  have hapart (d : Location) : brokenPatcher.config.OutputsApartAt d := History.default_apart d
  obtain ⟨hplanned, -⟩ := run_failed broken_spares (brokenRun true) fun _ _ _ ↦ hapart _
  obtain ⟨-, -, hstarted⟩ := run_failed broken_spares (brokenRun false) fun _ _ _ ↦ hapart _
  obtain ⟨hrun, hsame⟩ := hplanned _ _ hpatch
  have himage (failsToPatch : Bool) : (brokenRun failsToPatch).host.files.entryAt?
      brokenPatcher.config.patchedImagePath = some (.file staleImage) := rfl
  have hfingerprint (failsToPatch : Bool) : (brokenRun failsToPatch).host.files.entryAt?
      brokenPatcher.config.fingerprintPath = some (.file staleFingerprint) := rfl
  refine ⟨⟨_, q, rfl, hrun, ?_, ?_⟩, _, q', rfl, hstart, ?_⟩
  · exact hsame.image.trans (himage true)
  · exact hsame.fingerprint.trans (hfingerprint true)
  · exact (hstarted _ _ _ hstart).trans (hfingerprint false)

end Example

end Patcher

end HookPatch
