import HookPatch.Proofs.FileTree.Parents
import HookPatch.Proofs.Json.Zero
import HookPatch.Proofs.Run.Rebuild
import HookPatch.Run.Fingerprint

namespace HookPatch

/-- What a rebuild reads of a mod, and what goes into the fingerprint. -/
structure ModInputs where
  id : String
  /-- The name and the version, one behind the other. -/
  label : String
  build : ByteArray
  manifest : ByteArray
  scripts : List (String × ByteArray)

namespace ModInputs

variable (r : ModInputs)

def scriptText : String := String.join (r.scripts.map fun s ↦ s.1 ++ "\x00" ++ Sha256.hex s.2)

def scriptHash : String := if r.scripts.isEmpty then "" else Sha256.hex r.scriptText.toUTF8

def text : String := r.label ++ Sha256.hex r.build ++ r.scriptHash

/-- The contents whose hashes are in the fingerprint. -/
def hashed : List ByteArray :=
  r.build :: if r.scripts.isEmpty then [] else r.scriptText.toUTF8 :: r.scripts.map (·.2)

def manifest? : Option Manifest :=
  (String.fromUTF8? r.manifest).bind fun s ↦ (Json.ofText? s).bind Manifest.ofJson?

def exports : List Export := (r.manifest?.getD {}).interop

end ModInputs

def Mod.inputs (t : FileTree) (m : Mod) : ModInputs where
  id := m.id
  label := m.metadata.name ++ m.metadata.version
  build := t.content m.buildPath
  manifest := t.content m.manifestPath
  scripts := ((m.scriptPaths t).toOption.getD []).map fun p ↦ (p.fileName?.getD "", t.content p)

structure Inputs where
  base : ByteArray
  mods : List ModInputs

namespace Inputs

variable (i : Inputs)

def text (exeName : String) : String :=
  exeName ++ Sha256.hex i.base ++ programVersion ++ String.join (i.mods.map ModInputs.text)

def hashed : List ByteArray := i.base :: i.mods.flatMap ModInputs.hashed

end Inputs

variable {σ : Type} {t : FileTree} {path : Path} {m : Mod}

def Patcher.inputs (l : Patcher σ) (t : FileTree) (mods : List Mod) : Inputs where
  base := t.content l.config.baseImagePath
  mods := mods.map (Mod.inputs t)

theorem contentHash_eq_ok {hash : String} (h : contentHash t path = .ok hash) :
    hash = Sha256.hex (t.content path) := by
  rw [contentHash] at h
  split at h
  · cases h
  · rename_i content hread
    cases h
    rw [FileTree.content_eq hread]

section Scripts

theorem Mod.scriptRecord_eq_ok {record : String} (h : scriptRecord t path = .ok record) :
    record = path.fileName?.getD "" ++ "\x00" ++ Sha256.hex (t.content path) := by
  rw [scriptRecord] at h
  obtain ⟨hash, hhash, h⟩ := except_bind_eq_ok_iff.mp h
  cases h
  rw [contentHash_eq_ok hhash]

theorem Mod.scripts_eq {paths : List Path} (h : m.scriptPaths t = .ok paths) :
    (m.inputs t).scripts = paths.map fun p ↦ (p.fileName?.getD "", t.content p) := by
  rw [inputs, h]
  rfl

theorem Mod.scriptHash_eq_ok {hash : String} (h : m.scriptHash t = .ok hash) :
    hash = (m.inputs t).scriptHash := by
  rw [scriptHash] at h
  obtain ⟨paths, hpaths, h⟩ := except_bind_eq_ok_iff.mp h
  rw [ModInputs.scriptHash, ModInputs.scriptText, scripts_eq hpaths, List.isEmpty_map]
  split at h
  · rename_i hempty
    cases h
    rw [if_pos hempty]
  · rename_i hempty
    obtain ⟨records, hrecords, h⟩ := except_bind_eq_ok_iff.mp h
    cases h
    have hmap := except_mapM_eq_map (fun p _ record ↦ scriptRecord_eq_ok) hrecords
    rw [if_neg hempty, List.map_map, hmap]
    rfl

theorem Environment.readScript_eq_ok {script : String × String}
    (h : readScript t path = .ok script) :
    script = (path.fileName?.getD "", (String.fromUTF8? (t.content path)).getD "") := by
  rw [readScript] at h
  split at h
  · cases h
  · rename_i text htext
    cases h
    obtain ⟨content, hread, htext⟩ := FileTree.readText_eq_ok_iff.mp htext
    rw [FileTree.content_eq hread, htext]
    rfl

/-- The scripts that a rebuild loads are those of the fingerprint, read as text. -/
theorem Environment.scripts_of_load {env : Environment} (h : Environment.load t m = .ok env) :
    env.scripts = (m.inputs t).scripts.map fun s ↦ (s.1, (String.fromUTF8? s.2).getD "") := by
  rw [load] at h
  obtain ⟨paths, hpaths, h⟩ := except_bind_eq_ok_iff.mp h
  obtain ⟨scripts, hscripts, h⟩ := except_bind_eq_ok_iff.mp h
  cases h
  rw [Mod.scripts_eq hpaths, List.map_map]
  exact except_mapM_eq_map (fun p _ script ↦ readScript_eq_ok) hscripts

theorem Mod.isFile_of_mem_scriptPaths {paths : List Path} (h : m.scriptPaths t = .ok paths)
    (hpath : path ∈ paths) : t.isFile path ∧ path.extension? = some scriptExtension := by
  rw [scriptPaths] at h
  split at h
  · split at h
    · cases h
    · cases h
      simpa using (List.mem_filter.mp hpath).2
  · cases h
    cases hpath

theorem Mod.zero_not_mem_script {s : String × ByteArray} (h : s ∈ (m.inputs t).scripts) :
    '\x00' ∉ s.1.toList := by
  obtain ⟨path, hpath, rfl⟩ := List.mem_map.mp h
  cases hname : path.fileName? with
  | none => simp
  | some name =>
    intro hzero
    have htext := Path.mem_text_of_mem_fileName hname hzero
    have hfile : t.isFile path := by
      cases hpaths : m.scriptPaths t with
      | error e => simp [hpaths, Except.toOption] at hpath
      | ok paths =>
        rw [hpaths] at hpath
        exact (isFile_of_mem_scriptPaths hpaths hpath).1
    obtain ⟨content, hentry⟩ := FileTree.isFile_iff.mp hfile
    obtain ⟨l, hlocate, -⟩ := FileTree.entryAt?_eq_some.mp hentry
    have hadmits := (FileTree.locate_eq_ok_iff.mp hlocate).2.1
    simp [FileTree.admits, htext] at hadmits

end Scripts

section Text

theorem Mod.buildPath_eq_manifestPath (h : m.namesBuildFile = false) :
    m.buildPath = m.manifestPath := by
  have hfile : m.metadata.buildFile = none := by simpa [namesBuildFile] using h
  rw [buildPath, hfile]
  rfl

theorem Mod.buildHash_of_manifest (hmanifest : t.existsAt m.manifestPath) :
    m.buildHash t = contentHash t m.buildPath := by
  rw [buildHash]
  split
  · rename_i hnone
    rw [Bool.and_eq_true, Bool.not_eq_true', Bool.not_eq_true'] at hnone
    -- the manifest is there, so the usual build file is
    rw [buildPath_eq_manifestPath hnone.1, hmanifest] at hnone
    cases hnone.2
  · rfl

theorem Mod.buildHash_eq_ok (hmanifest : t.existsAt m.manifestPath) {hash : String}
    (h : m.buildHash t = .ok hash) : hash = Sha256.hex (t.content m.buildPath) := by
  rw [buildHash_of_manifest hmanifest] at h
  exact contentHash_eq_ok h

theorem Fingerprint.part_eq_ok (hmanifest : t.existsAt m.manifestPath) {s : String}
    {ws ws' : List Warning} (h : part t ({} : Catalog σ) m ws = .ok s ws') :
    s = (m.inputs t).text := by
  rw [part] at h
  obtain ⟨build, ws₁, hbuild, h⟩ := bind_eq_ok_iff.mp h
  obtain rfl := Mod.buildHash_eq_ok hmanifest (ofExcept_eq_ok_iff.mp hbuild).1
  have hcontains : ({} : Catalog σ).contains m.id = false := rfl
  simp only [hcontains, Bool.and_false, Bool.false_eq_true, if_false] at h
  obtain ⟨scripts, ws₃, hscripts, h⟩ := bind_eq_ok_iff.mp h
  obtain rfl := Mod.scriptHash_eq_ok (ofExcept_eq_ok_iff.mp hscripts).1
  cases h
  rw [ModInputs.text, show Catalog.buildVersion? {} m.id = none from rfl]
  simp [Mod.inputs]

theorem Patcher.fingerprint_eq_ok {l : Patcher σ} (hcatalog : l.catalog = {}) {mods : List Mod}
    (hmanifests : ∀ m ∈ mods, t.existsAt m.manifestPath) {f : Fingerprint} {ws ws' : List Warning}
    (h : l.fingerprint t mods ws = .ok f ws') : f.text = (l.inputs t mods).text l.exeName := by
  rw [fingerprint, hcatalog, Fingerprint.ofRun, Fingerprint.compute] at h
  obtain ⟨base, ws₁, hbase, h⟩ := bind_eq_ok_iff.mp h
  obtain rfl := contentHash_eq_ok (ofExcept_eq_ok_iff.mp hbase).1
  obtain ⟨parts, ws₂, hparts, h⟩ := bind_eq_ok_iff.mp h
  have hpart (m : Mod) (hm : m ∈ mods) (ws : List Warning) (s : String) (ws' : List Warning)
      (_ : True) (hs : Fingerprint.part t ({} : Catalog σ) m ws = .ok s ws') :
      True ∧ True ∧ s = (m.inputs t).text :=
    ⟨trivial, trivial, Fingerprint.part_eq_ok (hmanifests m hm) hs⟩
  obtain ⟨-, -, rfl⟩ := mapM_eq_map trivial hpart hparts
  cases h
  rw [Inputs.text, inputs, List.map_map]
  rfl

end Text

/-- Two mods of which a rebuild reads the same. The id counts only if the mod exports something. -/
structure ModInputs.SameRead (r r' : ModInputs) : Prop where
  manifest : r.manifest = r'.manifest
  scripts : r.scripts = r'.scripts
  id : r.exports = [] ∨ r.id = r'.id

section Image

def LoadedMod.ofManifest (t : FileTree) (m : Mod) : LoadedMod σ where
  mod := m
  logic := ((m.inputs t).manifest?.getD {}).logic

theorem Manifest.load_eq_ok {manifest : Manifest} (h : load t m.manifestPath = .ok manifest) :
    (m.inputs t).manifest? = some manifest := by
  rw [load, loadDocument] at h
  split at h
  · cases h
  · rename_i text htext
    obtain ⟨content, hread, htext⟩ := FileTree.readText_eq_ok_iff.mp htext
    rw [ModInputs.manifest?, Mod.inputs, FileTree.content_eq hread, htext]
    split at h
    · cases h
    · rename_i hmanifest
      cases h
      exact hmanifest

structure Mod.HasManifest (t : FileTree) (m : Mod) : Prop where
  exists_file : t.existsAt m.manifestPath
  isSome : (m.inputs t).manifest?.isSome

theorem Catalog.instantiate_empty_eq_ok_iff {host host' : Host σ} {logic : ModLogic σ} :
    ({} : Catalog σ).instantiate m host = .ok logic host' ↔ host = host' ∧
      host.files.isFile m.manifestPath ∧ ∃ manifest : Manifest,
        Manifest.load host.files m.manifestPath = .ok manifest ∧ manifest.logic = logic := by
  rw [instantiate, show ({} : Catalog σ).find? m.id = none from rfl]
  by_cases hfile : host.files.isFile m.manifestPath
  · cases Manifest.load host.files m.manifestPath with
    | error e => simp [hfile]
    | ok manifest => simp [hfile, and_comm]
  · simp [hfile]

theorem Catalog.instantiate_empty_eq_ok {host host' : Host σ} {logic : ModLogic σ}
    (h : ({} : Catalog σ).instantiate m host = .ok logic host') :
    host = host' ∧ m.HasManifest host.files ∧
      logic = ((m.inputs host.files).manifest?.getD {}).logic := by
  obtain ⟨rfl, hfile, manifest, hload, rfl⟩ := instantiate_empty_eq_ok_iff.mp h
  have hmanifest := Manifest.load_eq_ok hload
  refine ⟨rfl, ⟨FileTree.existsAt_of_isFile hfile, by rw [hmanifest]; rfl⟩, ?_⟩
  rw [hmanifest]
  rfl

theorem Patcher.instantiate_eq_ok {l : Patcher σ} (hcatalog : l.catalog = {}) {p q : Progress σ}
    {loaded : LoadedMod σ} (h : l.instantiate m p = .ok loaded q) : q.host.files = p.host.files ∧
      m.HasManifest p.host.files ∧ loaded = .ofManifest p.host.files m := by
  rw [instantiate, hcatalog] at h
  obtain ⟨logic, p₁, hcall, h⟩ := bind_eq_ok_iff.mp h
  cases h
  obtain ⟨host, hlogic, rfl⟩ := Run.calling_eq_ok_iff.mp hcall
  obtain ⟨rfl, hmanifest, rfl⟩ := Catalog.instantiate_empty_eq_ok hlogic
  exact ⟨rfl, hmanifest, rfl⟩

theorem ModInputs.SameRead.agree {t' : FileTree} {m' : Mod}
    (h : (m.inputs t).SameRead (m'.inputs t')) :
    LoadedMod.Agree t t' (.ofManifest t m : LoadedMod σ) (.ofManifest t' m') := by
  refine ⟨⟨(m.inputs t).manifest?.getD {}, rfl, ?_, h.id⟩, fun env env' henv henv' ↦ ?_⟩
  · have hmanifest : (m'.inputs t').manifest? = (m.inputs t).manifest? := by
      rw [manifest?, manifest?, h.manifest]
    rw [← hmanifest]
    rfl
  · have hscripts := Environment.scripts_of_load henv
    rw [LoadedMod.ofManifest, h.scripts] at hscripts
    exact hscripts.trans (Environment.scripts_of_load henv').symm

end Image

/-- What a run does that rebuilds the image whether or not it has to: it comes to the mods, the
fingerprint and the image. -/
def Patcher.forcedRebuild (l : Patcher σ) : Run σ (List Mod × Fingerprint × Image) := do
  let order ← Run.surveying l.loadOrder
  let f ← Run.surveying fun t ↦ l.fingerprint t order.mods
  let loaded ← order.mods.mapM l.instantiate
  let image ← l.rebuild loaded
  return (order.mods, f, image)

def Patcher.Rebuilds (l : Patcher σ) (t : FileTree) (mods : List Mod) (f : Fingerprint)
    (image : Image) : Prop :=
  ∃ p q, p.host.files = t ∧ l.forcedRebuild p = .ok (mods, f, image) q

namespace Patcher.Rebuilds

variable {l : Patcher σ} {t t' : FileTree} {mods mods' : List Mod} {f f' : Fingerprint}
  {image image' : Image}

theorem parts (hcatalog : l.catalog = {}) (h : l.Rebuilds t mods f image) :
    (∃ ws ws', l.fingerprint t mods ws = .ok f ws') ∧ (∀ m ∈ mods, m.HasManifest t) ∧
      ∃ p q, p.host.files = t ∧ l.rebuild (mods.map (.ofManifest t)) p = .ok image q := by
  obtain ⟨p, q, rfl, h⟩ := h
  obtain ⟨order, p₁, horder, h⟩ := bind_eq_ok_iff.mp h
  obtain ⟨ws₁, -, rfl⟩ := Run.surveying_eq_ok_iff.mp horder
  obtain ⟨f, p₂, hsurvey, h⟩ := bind_eq_ok_iff.mp h
  obtain ⟨ws₂, hfingerprint, rfl⟩ := Run.surveying_eq_ok_iff.mp hsurvey
  obtain ⟨loaded, p₃, hinstantiate, h⟩ := bind_eq_ok_iff.mp h
  obtain ⟨image, p₄, hrebuild, h⟩ := bind_eq_ok_iff.mp h
  cases h
  obtain ⟨hp₃, hmanifests, rfl⟩ := mapM_eq_map (I := fun q ↦ q.host.files = p.host.files) rfl
    (fun m _ p loaded q hp hloaded ↦ hp ▸ instantiate_eq_ok hcatalog hloaded) hinstantiate
  exact ⟨⟨ws₁, ws₂, hfingerprint⟩, hmanifests, p₃, _, hp₃, hrebuild⟩

theorem isSome_manifest (hcatalog : l.catalog = {}) (h : l.Rebuilds t mods f image) {r : ModInputs}
    (hr : r ∈ (l.inputs t mods).mods) : r.manifest?.isSome := by
  obtain ⟨m, hm, rfl⟩ := List.mem_map.mp hr
  exact ((h.parts hcatalog).2.1 m hm).isSome

theorem text_eq (hcatalog : l.catalog = {}) (h : l.Rebuilds t mods f image) :
    f.text = (l.inputs t mods).text l.exeName := by
  obtain ⟨⟨ws, ws', hfingerprint⟩, hmanifests, -⟩ := h.parts hcatalog
  exact fingerprint_eq_ok hcatalog (fun m hm ↦ (hmanifests m hm).exists_file) hfingerprint

theorem image_eq (hcatalog : l.catalog = {}) (h : l.Rebuilds t mods f image)
    (h' : l.Rebuilds t' mods' f' image')
    (hbase : (l.inputs t mods).base = (l.inputs t' mods').base)
    (hmods : List.Forall₂ ModInputs.SameRead (l.inputs t mods).mods (l.inputs t' mods').mods) :
    image = image' := by
  obtain ⟨-, -, p, q, hp, hrebuild⟩ := h.parts hcatalog
  obtain ⟨-, -, p', q', hp', hrebuild'⟩ := h'.parts hcatalog
  have hloaded : List.Forall₂ (LoadedMod.Agree t t') (mods.map (.ofManifest t : Mod → LoadedMod σ))
      (mods'.map (.ofManifest t')) := by
    rw [inputs, inputs, List.forall₂_map_left_iff, List.forall₂_map_right_iff] at hmods
    rw [List.forall₂_map_left_iff, List.forall₂_map_right_iff]
    exact hmods.imp fun m m' h ↦ h.agree
  exact (rebuild_agree hbase hloaded p p' ⟨hp, hp'⟩ _ _ _ _ hrebuild hrebuild').2

end Patcher.Rebuilds

end HookPatch
