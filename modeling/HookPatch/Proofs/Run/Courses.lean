import HookPatch.Proofs.Run.Sparing

namespace HookPatch

variable {σ : Type}

namespace Patcher

open Run

inductive Finishes (l : Patcher σ) (f : Fingerprint) (p : Progress σ) :
    EStateM.Result RunError (Progress σ) Outcome → Prop
  | notStarted {e : RunError} {p' : Progress σ} (hquiet : Quiet l.config p p') :
      l.Finishes f p (.error e p')
  | notStored {e : RunError} {p' : Progress σ} {t : FileTree} (hquiet : Quiet l.config p p')
      (hsave : f.save l.config.fingerprintPath p'.host.files = .error e t) :
      l.Finishes f p (.error e (p'.withFiles t))
  | stored {outcome : Outcome} {p' : Progress σ} {t : FileTree} (hquiet : Quiet l.config p p')
      (hsave : f.save l.config.fingerprintPath p'.host.files = .ok () t) :
      l.Finishes f p (.ok outcome (p'.withFiles t))

/-- What a run comes to: it stops before it has a patched image, or copies the base image, or uses
the patched image that there is, or builds one. -/
inductive Course (l : Patcher σ) (p : Progress σ) :
    EStateM.Result RunError (Progress σ) Outcome → Prop
  | stopped {e : RunError} {p' : Progress σ} (hquiet : Quiet l.config p p') : l.Course p (.error e p')
  | copied {p' : Progress σ} {t t' : FileTree} {r : EStateM.Result RunError (Progress σ) Outcome}
      (hquiet : Quiet l.config p p') (hcopy : l.copyBase p'.host.files = .ok () t)
      (hforget : stateAfter (Fingerprint.forget l.config.fingerprintPath) t = t')
      (hend : (∃ o, r = .ok o ((p'.noted .copy).withFiles t')) ∨
        ∃ e, r = .error e ((p'.noted .copy).withFiles t')) : l.Course p r
  | reused {f : Fingerprint} {p' : Progress σ} {r : EStateM.Result RunError (Progress σ) Outcome}
      (hquiet : Quiet l.config p p') (hcurrent : l.isStale f p'.host.files = .ok false)
      (hfinish : l.Finishes f (p'.noted (.reuse f)) r) : l.Course p r
  | built {f : Fingerprint} {image : Image} {p' p'' : Progress σ} {t : FileTree}
      {r : EStateM.Result RunError (Progress σ) Outcome}
      (hquiet : Quiet l.config p p') (hstale : l.isStale f p'.host.files = .ok true)
      (hrebuild : Quiet l.config p' p'')
      (hstore : image.store l.zstd l.config.imageFormat l.config.patchedImagePath p''.host.files = .ok () t)
      (hfinish : l.Finishes f ((p''.withFiles t).noted (.build f)) r) : l.Course p r

variable {l : Patcher σ} {p : Progress σ}

theorem Course.after {p₀ : Progress σ} {r : EStateM.Result RunError (Progress σ) Outcome}
    (h : l.Course p r) (h₀ : Quiet l.config p₀ p) : l.Course p₀ r := by
  cases h with
  | stopped hquiet => exact .stopped (h₀.trans _ _ _ hquiet)
  | copied hquiet hcopy hforget hend => exact .copied (h₀.trans _ _ _ hquiet) hcopy hforget hend
  | reused hquiet hcurrent hfinish => exact .reused (h₀.trans _ _ _ hquiet) hcurrent hfinish
  | built hquiet hstale hrebuild hstore hfinish =>
    exact .built (h₀.trans _ _ _ hquiet) hstale hrebuild hstore hfinish

theorem copyBase_eq (l : Patcher σ) (t : FileTree) : l.copyBase t =
    match t.copy l.config.baseImagePath l.config.patchedImagePath with
    | (t, .error _) => .error (.inaccessible l.config.patchedImagePath) t
    | (t, .ok _) => .ok () t := (rfl)

theorem copyBase_eq_error {t t' : FileTree} {e : RunError} (h : l.copyBase t = .error e t') :
    t' = t := by
  rw [copyBase_eq] at h
  split at h
  · rename_i fault hcopy
    cases h
    exact FileTree.copy_eq_error hcopy
  · cases h

theorem runPlain_course : l.Course p (l.runPlain p) := by
  rw [runPlain]
  rcases writing_bind l.copyBase _ p with ⟨e, t, hcopy, heq⟩ | ⟨_, t, hcopy, heq⟩
  · rw [heq, copyBase_eq_error hcopy]
    exact .stopped (.refl p)
  rw [heq, note_bind]
  refine .copied (.refl p) hcopy rfl ?_
  rcases writing_bind (Fingerprint.forget l.config.fingerprintPath) _ ((p.withFiles t).noted .copy)
    with ⟨e, t', hforget, heq⟩ | ⟨_, t', hforget, heq⟩
  · obtain rfl : stateAfter _ t = t' := stateAfter_error hforget
    exact .inr ⟨e, heq⟩
  · obtain rfl : stateAfter _ t = t' := stateAfter_ok hforget
    exact .inl ⟨_, heq⟩

theorem finishes {loaded : List (LoadedMod σ)} (h : ∀ m ∈ loaded, m.logic.Spares l.config)
    (f : Fingerprint) (outcome : Outcome) (p : Progress σ) :
    l.Finishes f p ((do
      loaded.forM start
      writing (f.save l.config.fingerprintPath)
      return outcome : Run σ Outcome) p) := by
  have hstart : Meets (Quiet l.config) (fun _ ↦ True) (loaded.forM start) :=
    Meets.forM Quiet.refl Quiet.trans fun m hm ↦ start_quiet (h m hm)
  rcases bind_cases (loaded.forM start) _ p with ⟨e, p', hx, heq⟩ | ⟨_, p', hx, heq⟩
  · rw [heq]
    exact .notStarted (hstart.error _ _ _ hx)
  have hquiet := (hstart.ok _ _ _ hx).1
  rw [heq]
  rcases writing_bind (f.save l.config.fingerprintPath) _ p' with ⟨e, t, hsave, heq⟩ | ⟨_, t, hsave, heq⟩
  · rw [heq]
    exact .notStored hquiet hsave
  · rw [heq]
    exact .stored hquiet hsave

theorem store_eq_error {z : Zstd} {image : Image} {format : ImageFormat} {path : Path}
    {t t' : FileTree} {e : RunError} (h : image.store z format path t = .error e t') : t' = t := by
  rw [Image.store] at h
  split at h
  · cases h
    rfl
  · cases h

theorem provideImage_cases {loaded : List (LoadedMod σ)}
    (h : ∀ m ∈ loaded, m.logic.Spares l.config) (f : Fingerprint) (p : Progress σ) :
    (∃ e p', Quiet l.config p p' ∧ l.provideImage loaded f p = .error e p') ∨
    (l.isStale f p.host.files = .ok false ∧
      l.provideImage loaded f p = .ok false (p.noted (.reuse f))) ∨
    ∃ (image : Image) (p' : Progress σ) (t : FileTree), l.isStale f p.host.files = .ok true ∧
      Quiet l.config p p' ∧
      image.store l.zstd l.config.imageFormat l.config.patchedImagePath p'.host.files = .ok () t ∧
      l.provideImage loaded f p = .ok true ((p'.withFiles t).noted (.build f)) := by
  rw [provideImage, reading_bind]
  cases hstale : l.isStale f p.host.files with
  | error e => exact .inl ⟨e, p, .refl p, rfl⟩
  | ok stale =>
    cases stale with
    | false => exact .inr (.inl ⟨rfl, rfl⟩)
    | true =>
      have hrebuild := rebuild_quiet (l := l) h
      simp only [if_true]
      rcases bind_cases (l.rebuild loaded) _ p with ⟨e, p', hx, heq⟩ | ⟨image, p', hx, heq⟩
      · exact .inl ⟨e, p', hrebuild.error _ _ _ hx, heq⟩
      have hquiet := (hrebuild.ok _ _ _ hx).1
      rw [heq]
      rcases writing_bind (image.store l.zstd l.config.imageFormat l.config.patchedImagePath) _ p' with
        ⟨e, t, hstore, heq⟩ | ⟨_, t, hstore, heq⟩
      · rw [heq, store_eq_error hstore]
        exact .inl ⟨e, p', hquiet, rfl⟩
      · rw [heq]
        exact .inr (.inr ⟨image, p', t, trivial, hquiet, hstore, rfl⟩)

theorem runMods_course (h : l.catalog.Spares l.config) (mods : List Mod) :
    l.Course p (l.runMods mods p) := by
  rw [runMods]
  rcases bind_cases (surveying fun t ↦ l.fingerprint t mods) _ p with
    ⟨e, p₁, hx, heq⟩ | ⟨f, p₁, hx, heq⟩
  · rw [heq]
    exact .stopped ((surveying_quiet _).error _ _ _ hx)
  have hquiet₁ := ((surveying_quiet (c := l.config) _).ok _ _ _ hx).1
  rw [heq]
  have hinstantiate := Meets.mapM Quiet.refl Quiet.trans
    fun m (_ : m ∈ mods) ↦ instantiate_quiet (c := l.config) h m
  rcases bind_cases (mods.mapM l.instantiate) _ p₁ with ⟨e, p₂, hx, heq⟩ | ⟨loaded, p₂, hx, heq⟩
  · rw [heq]
    exact .stopped (hquiet₁.trans _ _ _ (hinstantiate.error _ _ _ hx))
  obtain ⟨hquiet₂, hloaded⟩ := hinstantiate.ok _ _ _ hx
  have hquiet := hquiet₁.trans _ _ _ hquiet₂
  rw [heq]
  have hprovide := provideImage_cases (l := l) hloaded f p₂
  rcases bind_cases (l.provideImage loaded f) _ p₂ with ⟨e, p₃, hx, heq⟩ | ⟨rebuilt, p₃, hx, heq⟩
  · rw [hx] at hprovide
    rw [heq]
    rcases hprovide with ⟨e', p', hquiet₃, hend⟩ | ⟨-, hend⟩ | ⟨image, p', t, -, -, -, hend⟩
    · cases hend
      exact .stopped (hquiet.trans _ _ _ hquiet₃)
    · cases hend
    · cases hend
  · rw [hx] at hprovide
    rw [heq]
    rcases hprovide with
      ⟨e', p', -, hend⟩ | ⟨hcurrent, hend⟩ | ⟨image, p', t, hstale, hrebuild, hstore, hend⟩
    · cases hend
    · cases hend
      exact .reused hquiet hcurrent (finishes hloaded f _ _)
    · cases hend
      exact .built hquiet hstale hrebuild hstore (finishes hloaded f _ _)

theorem run_course (h : l.catalog.Spares l.config) (p : Progress σ) : l.Course p (l.run p) := by
  rw [run]
  change l.Course p ((if (!p.host.files.isFile l.config.baseImagePath) = true then
    (throw (.missingBaseImage l.config.baseImagePath) >>= _ : Run σ Outcome)
    else surveying l.loadOrder >>= _) p)
  split
  · exact .stopped (.refl p)
  rcases bind_cases (surveying l.loadOrder) _ p with ⟨e, p', hx, heq⟩ | ⟨order, p', hx, heq⟩
  · rw [heq]
    exact .stopped ((surveying_quiet _).error _ _ _ hx)
  have hquiet := ((surveying_quiet (c := l.config) _).ok _ _ _ hx).1
  rw [heq]
  split
  · exact runPlain_course.after hquiet
  · exact (runMods_course h order.mods).after hquiet

end Patcher

end HookPatch
