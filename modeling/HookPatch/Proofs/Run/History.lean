import HookPatch.Proofs.Run.Reuse

namespace HookPatch

variable {σ : Type}

structure Round (σ : Type) where
  change : Host σ → Host σ
  patcher : Patcher σ

namespace Round

def result (round : Round σ) (h : Host σ) : EStateM.Result RunError (Progress σ) Outcome :=
  round.patcher.run { host := round.change h }

def events (round : Round σ) (h : Host σ) : List Event := (resultState (round.result h)).events

def after (round : Round σ) (h : Host σ) : Host σ := (resultState (round.result h)).host

/-- Whether a run has the configuration `c`, and nothing but the run itself touches the patched image
and the stored fingerprint. -/
structure Fits (c : Config) (round : Round σ) : Prop where
  config : round.patcher.config = c
  catalog : round.patcher.catalog.Spares c
  change : ∀ h, c.SameOutput h.files (round.change h).files

theorem Fits.keeps {c : Config} {round : Round σ} (hapart : c.OutputsApart) (hfits : round.Fits c)
    {last : Option Event} {h : Host σ} (hcoherent : c.Coherent last h.files) :
    c.Keeps last (round.change h).files (round.result h) := by
  obtain ⟨rfl, hcatalog, hchange⟩ := hfits
  let p : Progress σ := { host := round.change h }
  have hquiet : Quiet round.patcher.config { host := h } p := ⟨⟨[], rfl, by simp⟩, hchange h⟩
  have hcourse := Patcher.run_course hcatalog p
  exact hcourse.keeps hapart rfl fun f hf ↦ hcoherent f (hquiet.reuses_iff.mp hf)

end Round

namespace History

def events : List (Round σ) → Host σ → List Event
  | [], _ => []
  | round :: rest, h => round.events h ++ events rest (round.after h)

def Settles (c : Config) : List (Round σ) → Host σ → Prop
  | [], _ => True
  | round :: rest, h =>
    c.Settles (round.change h).files (round.result h) ∧ Settles c rest (round.after h)

/-- Whether every run of a history leaves an image behind that would only be used for the
fingerprint that it was built for. -/
def Coherent (c : Config) (last : Option Event) : List (Round σ) → Host σ → Prop
  | [], _ => True
  | round :: rest, h =>
    c.Coherent (lastWrite last (round.events h)) (round.after h).files ∧
      Coherent c (lastWrite last (round.events h)) rest (round.after h)

instance decidableSettles (c : Config) : (rounds : List (Round σ)) → (h : Host σ) →
    Decidable (Settles c rounds h)
  | [], _ => isTrue trivial
  | round :: rest, h =>
    have := decidableSettles c rest (round.after h)
    inferInstanceAs (Decidable (c.Settles (round.change h).files (round.result h) ∧
      Settles c rest (round.after h)))

section

variable {c : Config} {rounds : List (Round σ)} {h : Host σ} {last : Option Event}

theorem justified_events (hapart : c.OutputsApart) (hfits : ∀ round ∈ rounds, round.Fits c)
    (hcoherent : c.Coherent last h.files) (hsettles : Settles c rounds h) :
    Justified last (events rounds h) := by
  induction rounds generalizing h last with
  | nil => trivial
  | cons round rest ih =>
    obtain ⟨hround, hrest⟩ := hsettles
    have hkeeps := (hfits round List.mem_cons_self).keeps hapart hcoherent
    -- the tree that a settled run leaves is coherent again, which the next run needs
    refine justified_append.mpr ⟨hkeeps.justified, ?_⟩
    exact ih (fun r hr ↦ hfits r (List.mem_cons_of_mem _ hr)) (hkeeps.coherent_iff.mpr hround) hrest

theorem settles_iff (hapart : c.OutputsApart) (hfits : ∀ round ∈ rounds, round.Fits c)
    (hcoherent : c.Coherent last h.files) : Settles c rounds h ↔ Coherent c last rounds h := by
  induction rounds generalizing h last with
  | nil => rfl
  | cons round rest ih =>
    have hkeeps := (hfits round List.mem_cons_self).keeps hapart hcoherent
    refine and_congr_left' hkeeps.coherent_iff.symm |>.trans (and_congr_right fun hround ↦ ?_)
    exact ih (fun r hr ↦ hfits r (List.mem_cons_of_mem _ hr)) hround

end

/-- From a tree in which there is nothing to use again, a history whose runs all settle only uses a
patched image again that was built for the fingerprint of the run. They settle just when none leaves
an image behind that would be used for another one. -/
theorem reuse_justified {c : Config} (hapart : c.OutputsApart) {rounds : List (Round σ)}
    (hfits : ∀ round ∈ rounds, round.Fits c) {h : Host σ} (hfresh : ∀ f, ¬ c.Reuses h.files f) :
    (Settles c rounds h → Justified none (events rounds h)) ∧
      (Settles c rounds h ↔ Coherent c none rounds h) := by
  have hcoherent : c.Coherent none h.files := fun f hf ↦ absurd hf (hfresh f)
  exact ⟨justified_events hapart hfits hcoherent, settles_iff hapart hfits hcoherent⟩

section Example

def fickleMod : Registration Bool where
  id := "m"
  build _ := pure {
    patch := fun _ ↦ pure ()
    start := fun _ h ↦ if h.state then .ok () h else .error { message := "" } h }

def rebased (units : String) (starts : Bool) : Round Bool where
  change h :=
    let document := "\x7b\"code\":[" ++ units ++ "]\x7d"
    match h.files.write ({} : Config).baseImagePath document.toUTF8 with
    | .ok files => { h with files, state := starts }
    | .error _ => { h with state := starts }
  patcher := {
    config := {}
    zstd := Image.quotingZstd
    catalog := { entries := [fickleMod] }
    exeName := "" }

def modOnly : Host Bool where
  files := {
    entries := [(["bcpatch"], .directory), (["bcpatch", "mods"], .directory),
      (["bcpatch", "mods", "m"], .directory),
      (["bcpatch", "mods", "m", "mod.json"],
        .file "\x7b\"name\":\"\",\"id\":\"m\",\"version\":\"\"\x7d".toUTF8)] }
  state := true

theorem location_baseImage (d : Location) :
    ({} : Config).baseImagePath.locationFrom d = d ++ ["data.win"] :=
  Path.locationFrom_of_steps (by decide) (by decide) d

theorem location_patchedImage (d : Location) :
    ({} : Config).patchedImagePath.locationFrom d = d ++ ["cache.win"] :=
  Path.locationFrom_of_steps (by decide) (by decide) d

theorem location_fingerprint (d : Location) :
    ({} : Config).fingerprintPath.locationFrom d = d ++ ["bcpatch", "cache.fingerprint"] :=
  Path.locationFrom_of_steps (by decide) (by decide) d

theorem default_apart : ({} : Config).OutputsApart := fun d ↦ by
  simp [location_patchedImage, location_fingerprint]

theorem rebased_fits (units : String) (starts : Bool) : (rebased units starts).Fits {} where
  config := rfl
  catalog r hr m := by
    obtain rfl : r = fickleMod := by simpa [rebased] using hr
    refine .pure (fun h ↦ .refl h.files) ⟨fun env image ↦ ?_, fun context ↦ ?_, fun m ↦ ?_⟩
    · exact .pure (fun h ↦ .refl h.files) trivial
    · exact .pure (fun p ↦ .refl p.host.files) trivial
    · refine .of_stateAfter fun h ↦ ?_
      cases hstate : h.state <;> simpa [stateAfter, hstate] using .refl h.files
  change h := by
    simp only [rebased]
    split
    · rename_i files hwrite
      refine ⟨FileTree.entryAt?_write_other hwrite ?_, FileTree.entryAt?_write_other hwrite ?_⟩
      · simp [location_patchedImage, location_baseImage]
      · simp [location_fingerprint, location_baseImage]
    · exact .refl h.files

theorem modOnly_fresh (f : Fingerprint) : ¬ ({} : Config).Reuses modOnly.files f := by
  intro hf
  have hexists : modOnly.files.existsAt ({} : Config).patchedImagePath = false := by decide +kernel
  rw [Config.Reuses, hexists] at hf
  exact Bool.false_ne_true hf.2

def repeatedRounds : List (Round Bool) := [rebased "" true, rebased "" true]

/-- A run with another base image, which fails to start the mods, between two runs with the same. -/
def restoredRounds : List (Round Bool) :=
  [rebased "" true, rebased "\x7b\"name\":\"a\"\x7d" false, rebased "" true]

theorem reuse_justified_repeated : Settles {} repeatedRounds modOnly ∧
    Justified none (events repeatedRounds modOnly) := by
  have hsettles : Settles {} repeatedRounds modOnly := by decide +kernel
  have hfits : ∀ round ∈ repeatedRounds, round.Fits {} := by simp [repeatedRounds, rebased_fits]
  exact ⟨hsettles, (reuse_justified default_apart hfits modOnly_fresh).1 hsettles⟩

/-- The last run uses the image of the run before it, which is that of another base image. -/
theorem not_reuse_justified_restored : ({} : Config).OutputsApart ∧
    (∀ round ∈ restoredRounds, round.Fits {}) ∧ (∀ f, ¬ ({} : Config).Reuses modOnly.files f) ∧
    ¬ Justified none (events restoredRounds modOnly) := by
  refine ⟨default_apart, ?_, modOnly_fresh, ?_⟩
  · simp [restoredRounds, rebased_fits]
  · decide +kernel

end Example

end History

end HookPatch
