import HookPatch.Proofs.Mod.Extended
import HookPatch.Proofs.Run.Inputs

namespace HookPatch

open FileTree

variable {σ : Type} {P D : Location → Prop} {path p : Path} {root : Location} {t t' : FileTree}
  {m : Mod}

theorem contentHash_eq (h : ReadsAlike t t' p) : contentHash t' p = contentHash t p := by
  rw [contentHash, contentHash]
  cases hread : t.read p with
  | ok content => rw [(h content).mpr hread]
  | error fault =>
    cases hread' : t'.read p with
    | ok content =>
      rw [(h content).mp hread'] at hread
      cases hread
    | error fault' => rfl

theorem FileTree.Extends.contentHash {hash : String} (h : Extends P D t t')
    (hp : ¬ P (p.locationFrom t.workingDirectory)) (hhash : contentHash t p = .ok hash) :
    HookPatch.contentHash t' p = .ok hash := by
  rw [← hhash]
  rw [HookPatch.contentHash] at hhash
  split at hhash
  · cases hhash
  · rename_i content hread
    exact contentHash_eq (h.readsAlike hread hp)

/-- Whether a mod has a manifest, and what is written leaves the mod alone. -/
structure Mod.Untouched (P : Location → Prop) (root : Location) (t : FileTree) (m : Mod) : Prop where
  livesIn : m.LivesIn t root
  manifest : t.isFile m.manifestPath
  build : m.namesBuildFile → ¬ P (m.buildPath.locationFrom t.workingDirectory)

namespace ExtendsOutside

variable (h : ExtendsOutside P D path root t t')

include h

theorem readsAlike_manifest (hm : m.LivesIn t root) : ReadsAlike t t' m.manifestPath := by
  obtain ⟨l, hl, -, hroot⟩ := hm
  exact h.readsAlike_child hl hroot (by decide)

theorem scriptHash_eq (hm : m.LivesIn t root) : m.scriptHash t' = m.scriptHash t := by
  rw [Mod.scriptHash, Mod.scriptHash, h.scriptPaths_eq hm]
  cases hpaths : m.scriptPaths t with
  | error e => rfl
  | ok paths =>
    have hrecords : paths.mapM (Mod.scriptRecord t') = paths.mapM (Mod.scriptRecord t) := by
      apply mapM_congr
      intro q hq
      obtain ⟨l, name, hl, hroot, hname, rfl⟩ := Mod.mem_scriptPaths h.wellFormed hm hpaths hq
      rw [Mod.scriptRecord, Mod.scriptRecord, contentHash_eq (h.readsAlike_child hl hroot hname)]
    simp only [bind, Except.bind, hrecords]

theorem buildHash_eq {hash : String} (hm : m.Untouched P root t)
    (hhash : m.buildHash t = .ok hash) : m.buildHash t' = .ok hash := by
  have halike := h.readsAlike_manifest hm.livesIn
  have hmanifest' : t'.isFile m.manifestPath := by
    rw [halike.isFile_eq]
    exact hm.manifest
  rw [Mod.buildHash_of_manifest (existsAt_of_isFile hm.manifest)] at hhash
  rw [Mod.buildHash_of_manifest (existsAt_of_isFile hmanifest')]
  cases hnames : m.namesBuildFile with
  | true => exact h.extension.contentHash (hm.build hnames) hhash
  | false =>
    rw [Mod.buildPath_eq_manifestPath hnames] at hhash ⊢
    rw [contentHash_eq halike, hhash]

/-- Whatever part of a fingerprint could be computed can be computed again. -/
theorem part_follows (hm : m.Untouched P root t) :
    Follows (fun _ _ ↦ True) Eq (Fingerprint.part t ({} : Catalog σ) m)
      (Fingerprint.part t' ({} : Catalog σ) m) := by
  rw [Fingerprint.part, Fingerprint.part]
  apply Follows.bind (.ofExcept fun _ ↦ h.buildHash_eq hm)
  rintro build _ rfl
  have hcontains : ({} : Catalog σ).contains m.id = false := rfl
  simp only [hcontains, Bool.and_false, Bool.false_eq_true, if_false, h.scriptHash_eq hm.livesIn]
  apply Follows.bind (.ofExcept fun _ ↦ id)
  rintro scripts _ rfl
  exact .pure rfl

variable {l : Patcher σ} (hcatalog : l.catalog = {})

include hcatalog

theorem fingerprint_follows {mods : List Mod} (hmods : ∀ m ∈ mods, m.Untouched P root t)
    (hbase : ¬ P (l.config.baseImagePath.locationFrom t.workingDirectory)) :
    Follows (fun _ _ ↦ True) Eq (l.fingerprint t mods) (l.fingerprint t' mods) := by
  rw [Patcher.fingerprint, Patcher.fingerprint, hcatalog, Fingerprint.ofRun, Fingerprint.ofRun,
    Fingerprint.compute, Fingerprint.compute]
  apply Follows.bind (.ofExcept fun _ ↦ h.extension.contentHash hbase)
  rintro base _ rfl
  apply Follows.bind (Follows.mapM fun m hm ↦ h.part_follows (hmods m hm))
  intro parts parts' hparts
  rw [List.forall₂_eq_eq_eq] at hparts
  subst hparts
  exact .pure rfl

theorem instantiate_follows (hm : m.LivesIn t root) :
    Follows (Progress.OnTrees t t') (fun _ _ ↦ True) (l.instantiate m) (l.instantiate m) := by
  rintro p q ⟨rfl, rfl⟩ loaded p' hp
  rw [Patcher.instantiate, hcatalog] at hp ⊢
  obtain ⟨logic, p₁, hcall, hp⟩ := bind_eq_ok_iff.mp hp
  cases hp
  obtain ⟨host, hlogic, rfl⟩ := Run.calling_eq_ok_iff.mp hcall
  obtain ⟨rfl, hfile, manifest, hload, rfl⟩ := Catalog.instantiate_empty_eq_ok_iff.mp hlogic
  have halike := h.readsAlike_manifest hm
  have hfile' : q.host.files.isFile m.manifestPath := by rwa [halike.isFile_eq]
  have hload' : Manifest.load q.host.files m.manifestPath = .ok manifest := by
    rwa [Manifest.load, halike.loadDocument_eq]
  have hlogic' : ({} : Catalog σ).instantiate m q.host = .ok manifest.logic q.host :=
    Catalog.instantiate_empty_eq_ok_iff.mpr ⟨rfl, hfile', manifest, hload', rfl⟩
  have hcall' : Run.calling (.instantiate m.id) (.modFailed m.id .instantiate)
      (({} : Catalog σ).instantiate m) q = .ok manifest.logic (q.noted (.instantiate m.id)) :=
    Run.calling_eq_ok_iff.mpr ⟨q.host, hlogic', rfl⟩
  exact ⟨_, _, bind_eq_ok_iff.mpr ⟨_, _, hcall', rfl⟩, ⟨rfl, rfl⟩, trivial⟩

end ExtendsOutside

end HookPatch
