import HookPatch.Proofs.ImageFile
import HookPatch.Proofs.Run.Courses
import HookPatch.Proofs.Run.StoredFingerprint

namespace HookPatch

variable {σ : Type}

def Config.Reuses (c : Config) (t : FileTree) (f : Fingerprint) : Prop :=
  Fingerprint.load t c.fingerprintPath = .ok (some f) ∧ t.existsAt c.patchedImagePath

def Config.OutputsApart (c : Config) : Prop :=
  ∀ d, c.patchedImagePath.locationFrom d ≠ c.fingerprintPath.locationFrom d

theorem Patcher.isStale_eq_false_iff {l : Patcher σ} {f : Fingerprint} {t : FileTree} :
    l.isStale f t = .ok false ↔ l.config.Reuses t f := by
  rw [isStale, Fingerprint.isStored, Config.Reuses]
  cases Fingerprint.load t l.config.fingerprintPath with
  | error e => simp [Except.map]
  | ok stored => simp [Except.map]

section Events

def builds (es : List Event) : List Fingerprint :=
  es.filterMap fun
    | .build f => some f
    | _ => none

/-- The event that last wrote the patched image, where `last` did so before. -/
def lastWrite (last : Option Event) : List Event → Option Event
  | [] => last
  | .copy :: rest => lastWrite (some .copy) rest
  | .build f :: rest => lastWrite (some (.build f)) rest
  | _ :: rest => lastWrite last rest

/-- Whether the patched image is only used again while it is that of the same fingerprint. -/
def Justified (last : Option Event) : List Event → Prop
  | [] => True
  | .copy :: rest => Justified (some .copy) rest
  | .build f :: rest => Justified (some (.build f)) rest
  | .reuse f :: rest => last = some (.build f) ∧ Justified last rest
  | _ :: rest => Justified last rest

instance decidableJustified : (last : Option Event) → (es : List Event) →
    Decidable (Justified last es)
  | _, [] => isTrue trivial
  | _, .copy :: rest => decidableJustified (some .copy) rest
  | _, .build f :: rest => decidableJustified (some (.build f)) rest
  | last, .reuse f :: rest =>
    have := decidableJustified last rest
    inferInstanceAs (Decidable (last = some (.build f) ∧ Justified last rest))
  | last, .instantiate _ :: rest => decidableJustified last rest
  | last, .prepare _ :: rest => decidableJustified last rest
  | last, .patch _ :: rest => decidableJustified last rest
  | last, .registerExport _ _ :: rest => decidableJustified last rest
  | last, .start _ :: rest => decidableJustified last rest

variable {last : Option Event} {es es' : List Event}

theorem lastWrite_append : lastWrite last (es ++ es') = lastWrite (lastWrite last es) es' := by
  induction es generalizing last with
  | nil => rfl
  | cons e es ih => cases e <;> exact ih

theorem justified_append :
    Justified last (es ++ es') ↔ Justified last es ∧ Justified (lastWrite last es) es' := by
  induction es generalizing last with
  | nil => simp [Justified, lastWrite]
  | cons e es ih => cases e <;> simp [Justified, lastWrite, ih, and_assoc]

theorem lastWrite_quiet (h : ∀ e ∈ es, e.isQuiet) : lastWrite last es = last := by
  induction es with
  | nil => rfl
  | cons e es ih =>
    have he := h e List.mem_cons_self
    have hes := ih fun e he ↦ h e (List.mem_cons_of_mem _ he)
    cases e <;> first | exact hes | cases he

theorem justified_quiet (h : ∀ e ∈ es, e.isQuiet) : Justified last es := by
  induction es with
  | nil => trivial
  | cons e es ih =>
    have he := h e List.mem_cons_self
    have hes := ih fun e he ↦ h e (List.mem_cons_of_mem _ he)
    cases e <;> first | exact hes | cases he

theorem builds_append : builds (es ++ es') = builds es ++ builds es' := List.filterMap_append

theorem builds_quiet (h : ∀ e ∈ es, e.isQuiet) : builds es = [] := by
  refine List.filterMap_eq_nil_iff.mpr fun e he ↦ ?_
  have he := h e he
  cases e <;> first | rfl | cases he

end Events

/-- Whether the patched image in a tree, last written by `last`, would only be used for the
fingerprint that it was built for. -/
def Config.Coherent (c : Config) (last : Option Event) (t : FileTree) : Prop :=
  ∀ f, c.Reuses t f → last = some (.build f)

section Course

variable {c : Config} {l : Patcher σ} {p p' : Progress σ}

theorem Quiet.existsAt_iff (h : Quiet c p p') : p'.host.files.existsAt c.patchedImagePath ↔
    p.host.files.existsAt c.patchedImagePath := by
  rw [FileTree.existsAt_iff, FileTree.existsAt_iff, h.output.image]

theorem Quiet.reuses_iff (h : Quiet c p p') {f : Fingerprint} :
    c.Reuses p'.host.files f ↔ c.Reuses p.host.files f :=
  and_congr (Fingerprint.load_congr h.output.fingerprint) h.existsAt_iff

/-- Whether a run that began with the tree `t` has either built no image, or stored the fingerprint
of its image as it is, or has found no other fingerprint to leave beside it. -/
def Config.Settles (c : Config) (t : FileTree) :
    EStateM.Result RunError (Progress σ) Outcome → Prop
  | .ok _ p => ∀ f ∈ builds p.events, f.trimmed = f
  | .error _ p => ∀ f ∈ builds p.events, Fingerprint.OnlyStored t c.fingerprintPath f

instance (c : Config) (t : FileTree) (r : EStateM.Result RunError (Progress σ) Outcome) :
    Decidable (c.Settles t r) :=
  match r with
  | .ok _ p => inferInstanceAs (Decidable (∀ f ∈ builds p.events, f.trimmed = f))
  | .error _ p =>
    inferInstanceAs (Decidable (∀ f ∈ builds p.events, Fingerprint.OnlyStored t c.fingerprintPath f))

theorem settles_of_builds {t : FileTree} {r : EStateM.Result RunError (Progress σ) Outcome}
    (h : builds (resultState r).events = []) : c.Settles t r := by
  cases r with
  | ok o p =>
    intro f hf
    rw [resultState] at h
    simp [h] at hf
  | error e p =>
    intro f hf
    rw [resultState] at h
    simp [h] at hf

theorem Patcher.Finishes.spec {f : Fingerprint} {r : EStateM.Result RunError (Progress σ) Outcome}
    (hapart : l.config.OutputsApart) (h : l.Finishes f p r)
    (hexists : p.host.files.existsAt l.config.patchedImagePath) :
    (∃ es, (resultState r).events = p.events ++ es ∧ ∀ e ∈ es, e.isQuiet) ∧
    ∀ g, l.config.Reuses (resultState r).host.files g ↔
      match r with
      | .ok _ _ => f.trimmed = g
      | .error _ _ => Fingerprint.load p.host.files l.config.fingerprintPath = .ok (some g) := by
  have hbefore (g : Fingerprint) : l.config.Reuses p.host.files g ↔
      Fingerprint.load p.host.files l.config.fingerprintPath = .ok (some g) :=
    and_iff_left hexists
  cases h with
  | notStarted hquiet => exact ⟨hquiet.events, fun g ↦ hquiet.reuses_iff.trans (hbefore g)⟩
  | @notStored e p' t hquiet hsave =>
    refine ⟨hquiet.events, fun g ↦ ?_⟩
    -- neither before nor after is there a fingerprint that could be loaded
    obtain ⟨hbefore', hafter⟩ := Fingerprint.not_isFile_of_save hsave
    rw [← hbefore, ← hquiet.reuses_iff]
    refine ⟨fun h ↦ ?_, fun h ↦ ?_⟩
    · exact absurd h.1 (Fingerprint.load_ne_some hafter)
    · exact absurd h.1 (Fingerprint.load_ne_some hbefore')
  | @stored outcome p' t hquiet hsave =>
    refine ⟨hquiet.events, fun g ↦ ?_⟩
    have hexists' := hquiet.existsAt_iff.mpr hexists
    refine (and_iff_left (Fingerprint.existsAt_save hsave hapart hexists')).trans ?_
    simp [resultState, Progress.withFiles, Fingerprint.load_save hsave]

theorem Image.store_eq_ok {z : Zstd} {image : Image} {format : ImageFormat} {path : Path}
    {t t' : FileTree} (h : image.store z format path t = .ok () t') :
    ∃ bytes, image.encode? z format = some bytes ∧ t.write path bytes = .ok t' := by
  rw [store] at h
  cases hsave : image.save z format t path with
  | error e => simp [hsave] at h
  | ok _ =>
    rw [hsave] at h
    cases h
    exact save_eq_ok_iff.mp hsave

/-- A run, begun with the tree `t` that `last` left an image in, only uses an image again that was
built for its fingerprint, and it leaves such a tree behind just when it settles. -/
structure Config.Keeps (c : Config) (last : Option Event) (t : FileTree)
    (r : EStateM.Result RunError (Progress σ) Outcome) : Prop where
  justified : Justified last (resultState r).events
  coherent_iff : c.Coherent (lastWrite last (resultState r).events) (resultState r).host.files ↔
    c.Settles t r

variable {last : Option Event} {r : EStateM.Result RunError (Progress σ) Outcome}
  {es : List Event} {f : Fingerprint}

theorem keeps_stopped {e : RunError} (hquiet : Quiet c p p') (hevents : ∀ e ∈ p'.events, e.isQuiet)
    (hcoherent : c.Coherent last p.host.files) :
    c.Keeps last p.host.files (.error e p' : EStateM.Result RunError _ Outcome) := by
  refine ⟨justified_quiet hevents,
    iff_of_true (fun f hf ↦ ?_) (settles_of_builds (builds_quiet hevents))⟩
  rw [resultState, lastWrite_quiet hevents]
  exact hcoherent f (hquiet.reuses_iff.mp hf)

theorem keeps_copied {t : FileTree} (hevents : (resultState r).events = es ++ [.copy])
    (hes : ∀ e ∈ es, e.isQuiet) (hfile : ¬ (resultState r).host.files.isFile c.fingerprintPath) :
    c.Keeps last t r := by
  refine ⟨?_, iff_of_true (fun f hf ↦ ?_) (settles_of_builds ?_)⟩
  · rw [hevents]
    exact justified_append.mpr ⟨justified_quiet hes, trivial⟩
  · exact absurd hf.1 (Fingerprint.load_ne_some hfile)
  · rw [hevents, builds_append, builds_quiet hes]
    rfl

theorem Patcher.Finishes.keeps_reused (hapart : l.config.OutputsApart)
    (hevents : p.events = es ++ [.reuse f]) (hes : ∀ e ∈ es, e.isQuiet)
    (hreuses : l.config.Reuses p.host.files f) (hlast : last = some (.build f))
    (h : l.Finishes f p r) {t : FileTree} : l.config.Keeps last t r := by
  obtain ⟨⟨es', hes', hquiet⟩, hspec⟩ := h.spec hapart hreuses.2
  rw [hevents] at hes'
  have hwrite : lastWrite last (resultState r).events = last := by
    rw [hes', lastWrite_append, lastWrite_append, lastWrite_quiet hes, lastWrite_quiet hquiet]
    rfl
  refine ⟨?_, iff_of_true (fun g hg ↦ ?_) (settles_of_builds ?_)⟩
  · rw [hes', justified_append, justified_append, lastWrite_quiet hes]
    exact ⟨⟨justified_quiet hes, hlast, trivial⟩, justified_quiet hquiet⟩
  · rw [hwrite, hlast]
    -- `f` has been loaded, so that trimming it again changes nothing
    suffices f = g by rw [this]
    have hg := (hspec g).mp hg
    cases r with
    | ok => exact (Fingerprint.trimmed_of_load hreuses.1).symm.trans hg
    | error => simpa using hreuses.1.symm.trans hg
  · rw [hes', builds_append, builds_append, builds_quiet hes, builds_quiet hquiet]
    rfl

/-- Only here can an image be left behind that is not that of the stored fingerprint. -/
theorem Patcher.Finishes.keeps_built (hapart : l.config.OutputsApart)
    (hevents : p.events = es ++ [.build f]) (hes : ∀ e ∈ es, e.isQuiet) {t : FileTree}
    (hstored : ∀ g, Fingerprint.load p.host.files l.config.fingerprintPath = .ok (some g) ↔
      Fingerprint.load t l.config.fingerprintPath = .ok (some g))
    (hexists : p.host.files.existsAt l.config.patchedImagePath) (h : l.Finishes f p r) :
    l.config.Keeps last t r := by
  obtain ⟨⟨es', hes', hquiet⟩, hspec⟩ := h.spec hapart hexists
  rw [hevents] at hes'
  have hwrite : lastWrite last (resultState r).events = some (.build f) := by
    rw [hes', lastWrite_append, lastWrite_quiet hquiet, lastWrite_append]
    rfl
  have hbuilds : builds (resultState r).events = [f] := by
    rw [hes', builds_append, builds_append, builds_quiet hes, builds_quiet hquiet]
    rfl
  constructor
  · rw [hes', justified_append, justified_append]
    exact ⟨⟨justified_quiet hes, trivial⟩, justified_quiet hquiet⟩
  · rw [hwrite]
    cases r with
    | ok o q =>
      rw [resultState] at hbuilds
      simp [Config.Coherent, Config.Settles, hspec, hbuilds, eq_comm]
    | error e q =>
      rw [resultState] at hbuilds
      simp [Config.Coherent, Config.Settles, Fingerprint.OnlyStored, hspec, hbuilds, hstored, eq_comm]

theorem Patcher.Course.keeps (hapart : l.config.OutputsApart) (h : l.Course p r)
    (hevents : p.events = []) (hcoherent : l.config.Coherent last p.host.files) :
    l.config.Keeps last p.host.files r := by
  have hquietEvents {q : Progress σ} (hquiet : Quiet l.config p q) : ∀ e ∈ q.events, e.isQuiet := by
    obtain ⟨es, hes, hes'⟩ := hquiet.events
    rw [hes, hevents, List.nil_append]
    exact hes'
  cases h with
  | stopped hquiet => exact keeps_stopped hquiet (hquietEvents hquiet) hcoherent
  | @copied p' t t' r hquiet hcopy hforget hend =>
    have hstate : resultState r = (p'.noted .copy).withFiles t' := by
      rcases hend with ⟨o, rfl⟩ | ⟨e, rfl⟩ <;> rfl
    refine keeps_copied (by rw [hstate]; rfl) (hquietEvents hquiet) ?_
    obtain ⟨t'', hforgotten | ⟨e, hforgotten⟩, hfile⟩ :=
      Fingerprint.forget_cases l.config.fingerprintPath t
    · rwa [hstate, Progress.withFiles, ← hforget, stateAfter_ok hforgotten]
    · rwa [hstate, Progress.withFiles, ← hforget, stateAfter_error hforgotten]
  | @reused f p' r hquiet hcurrent hfinish =>
    have hreuses : l.config.Reuses (p'.noted (.reuse f)).host.files f :=
      isStale_eq_false_iff.mp hcurrent
    exact hfinish.keeps_reused hapart rfl (hquietEvents hquiet) hreuses
      (hcoherent f (hquiet.reuses_iff.mp hreuses))
  | @built f image p' p'' t r hquiet hstale hrebuild hstore hfinish =>
    obtain ⟨_, -, hwritten⟩ := Image.store_eq_ok hstore
    have hquiet' := hquiet.trans _ _ _ hrebuild
    refine hfinish.keeps_built hapart rfl (hquietEvents hquiet') (fun g ↦ ?_)
      (FileTree.existsAt_iff.mpr ⟨_, FileTree.entryAt?_write_self hwritten⟩)
    refine (Fingerprint.load_congr ?_).trans (Fingerprint.load_congr hquiet'.output.fingerprint)
    exact FileTree.entryAt?_write_other hwritten fun h ↦ hapart _ h.symm

end Course

end HookPatch
