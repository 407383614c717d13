import HookPatch.Proofs.Run.Decoding
import HookPatch.Proofs.Run.Failures
import HookPatch.Proofs.Run.PhaseOrder
import HookPatch.Proofs.Run.SameFingerprint
import HookPatch.Proofs.Run.Unchanged

namespace HookPatch

open FileTree

variable {σ : Type}

section Trimmed

theorem Sha256.ne_lineEnd {message : ByteArray} {c : Char} (hc : c ∈ (Sha256.hex message).toList) :
    c ≠ '\r' ∧ c ≠ '\n' := by
  have hdigit : ∀ n < 16, Nat.digitChar n ≠ '\r' ∧ Nat.digitChar n ≠ '\n' := by decide
  rw [Sha256.hex, String.toList_ofList, List.mem_flatMap] at hc
  obtain ⟨w, -, hc⟩ := hc
  obtain ⟨i, -, rfl⟩ := List.mem_map.mp hc
  exact hdigit _ (Nat.mod_lt _ (by decide))

theorem trimLineEnds_append_hex (s : List Char) (message : ByteArray) :
    Text.trimLineEnds (s ++ (Sha256.hex message).toList) = s ++ (Sha256.hex message).toList := by
  rcases List.eq_nil_or_concat (Sha256.hex message).toList with hnil | ⟨init, c, hlast⟩
  · have hlength := Sha256.length_hex message
    rw [hnil] at hlength
    cases hlength
  · have hmem : c ∈ (Sha256.hex message).toList := by
      rw [hlast]
      simp
    have hc := Sha256.ne_lineEnd hmem
    rw [hlast, List.concat_eq_append, ← List.append_assoc, Text.trimLineEnds]
    simp [hc]

theorem ModInputs.exists_text_eq (r : ModInputs) :
    ∃ s message, r.text.toList = s ++ (Sha256.hex message).toList := by
  rw [toList_text]
  by_cases hscripts : r.scripts = []
  · refine ⟨r.label.toList, r.build, ?_⟩
    rw [scriptHash_of_nil hscripts, String.toList_empty, List.append_nil]
  · exact ⟨_, _, congrArg _ (congrArg String.toList (scriptHash_of_ne_nil hscripts))⟩

/-- Whatever the names and versions are, no line end is trimmed when the fingerprint of some mods is
loaded again. -/
theorem Inputs.trimmed_eq {i : Inputs} {exeName : String} {f : Fingerprint} (hmods : i.mods ≠ [])
    (hf : f.text = i.text exeName) : f.trimmed = f := by
  have htext : ∃ s message, f.text.toList = s ++ (Sha256.hex message).toList := by
    rcases List.eq_nil_or_concat i.mods with hnil | ⟨init, r, hlast⟩
    · exact absurd hnil hmods
    · obtain ⟨s, message, hr⟩ := r.exists_text_eq
      rw [hf, text, hlast, List.concat_eq_append, List.map_append, String.join_append,
        List.map_singleton, String.join_cons, String.join_nil, String.append_empty]
      simp only [String.toList_append, hr, ← List.append_assoc]
      exact ⟨_, message, rfl⟩
  obtain ⟨s, message, htext⟩ := htext
  rw [Fingerprint.trimmed, htext, trimLineEnds_append_hex, ← htext, String.ofList_toList]

end Trimmed

namespace Fingerprint

variable {t t' : FileTree} {path : Path} {f : Fingerprint}

theorem extends_of_save {P D : Location → Prop} (hP : P (path.locationFrom t.workingDirectory))
    (hD : ∀ q ∈ directoriesFor (path.parent?.getD ⟨""⟩), D (q.locationFrom t.workingDirectory))
    (h : f.save path t = .ok () t') : Extends P D t t' := by
  obtain ⟨t₁, hmake, hwrite⟩ := save_eq_ok_iff.mp h
  have hmade : Extends P D t t₁ := by
    have hmakePath : Extends P D t (t.makePath (path.parent?.getD ⟨""⟩)).1 := .makePath hD
    rwa [hmake] at hmakePath
  exact hmade.trans (.write hwrite (by rwa [hmade.workingDirectory]))

theorem save_again (h : f.save path t = .ok () t') :
    ∃ t'', f.save path t' = .ok () t'' ∧ ∀ q, t''.entryAt? q = t'.entryAt? q := by
  obtain ⟨t₁, hmake, hwrite⟩ := save_eq_ok_iff.mp h
  have hgrows : Extends (fun _ ↦ True) (fun _ ↦ True) t₁ t' := .write hwrite trivial
  have hmake' := makePath_again hmake fun q ↦ hgrows.isDirectory
  obtain ⟨l, hl, he⟩ := entryAt?_eq_some.mp (entryAt?_write_self hwrite)
  have hdir : t'.entry? l ≠ some .directory := by simp [he]
  refine ⟨t'.put l (.file f.text.toUTF8), ?_, fun q ↦ ?_⟩
  · exact save_eq_ok_iff.mpr ⟨t', hmake', write_eq_ok_iff.mpr ⟨l, hl, hdir, rfl⟩⟩
  · apply entryAt?_congr (hasDirectories_put hdir) (hasDirectories_of_put hdir)
    rw [entry?_put (ne_nil_of_not_directory hdir)]
    split
    · rename_i hq
      rw [hq, he]
    · rfl

end Fingerprint

def Config.WritesAt (c : Config) (workingDirectory l : Location) : Prop :=
  l = c.patchedImagePath.locationFrom workingDirectory ∨
    l = c.fingerprintPath.locationFrom workingDirectory

/-- Whether what a run writes lies apart from what it reads. -/
structure Config.OutputsOutside (c : Config) (workingDirectory : Location) (mods : List Mod) :
    Prop where
  apart : c.OutputsApartAt workingDirectory
  outside : ∀ l, c.WritesAt workingDirectory l → ¬ c.modsPath.locationFrom workingDirectory <+: l
  base : ¬ c.WritesAt workingDirectory (c.baseImagePath.locationFrom workingDirectory)
  builds : ∀ m ∈ mods, m.namesBuildFile →
    ¬ c.WritesAt workingDirectory (m.buildPath.locationFrom workingDirectory)

def Config.MakesAt (c : Config) (workingDirectory l : Location) : Prop :=
  ∃ q ∈ directoriesFor (c.fingerprintPath.parent?.getD ⟨""⟩), l = q.locationFrom workingDirectory

/-- Whether no directory is made for the stored fingerprint where a list of mods is looked for. -/
def Config.SparesLists (c : Config) (workingDirectory : Location) : Prop :=
  ∀ name ∈ [allowListName, denyListName],
    ¬ c.MakesAt workingDirectory (c.modsPath.locationFrom workingDirectory ++ [name])

namespace Patcher

open Run

variable {l : Patcher σ} {mods : List Mod} {t : FileTree} {p q : Progress σ} {f : Fingerprint}

section Manifests

theorem files_rebuild {image : Image} (hp : p.host.files = t)
    (h : l.rebuild (mods.map (.ofManifest t)) p = .ok image q) : q.host.files = t := by
  have hloaded : List.Forall₂ (LoadedMod.Agree t t) (mods.map (.ofManifest t : Mod → LoadedMod σ))
      (mods.map (.ofManifest t)) := by
    rw [List.forall₂_map_left_iff, List.forall₂_map_right_iff, List.forall₂_same]
    intro m _
    exact ModInputs.SameRead.agree ⟨rfl, rfl, .inr rfl⟩
  exact (rebuild_agree rfl hloaded p p ⟨hp, hp⟩ _ _ _ _ h h).1.1

theorem forM_start (mods : List Mod) (t : FileTree) (p : Progress σ) :
    ∃ q, (mods.map (.ofManifest t : Mod → LoadedMod σ)).forM start p = .ok () q ∧
      q.host = p.host := by
  induction mods generalizing p with
  | nil => exact ⟨p, rfl, rfl⟩
  | cons m mods ih =>
    obtain ⟨q, hq, hhost⟩ := ih (p.noted (.start m.id))
    have hstart : start (.ofManifest t m : LoadedMod σ) p = .ok () (p.noted (.start m.id)) := rfl
    exact ⟨q, (bind_ok hstart).trans hq, hhost⟩

theorem isFile_manifest (hcatalog : l.catalog = {}) {m : Mod} {loaded : LoadedMod σ}
    (h : l.instantiate m p = .ok loaded q) : p.host.files.isFile m.manifestPath := by
  rw [instantiate, hcatalog] at h
  obtain ⟨logic, _, hcall, -⟩ := bind_eq_ok_iff.mp h
  obtain ⟨_, hlogic, -⟩ := calling_eq_ok_iff.mp hcall
  exact (Catalog.instantiate_empty_eq_ok_iff.mp hlogic).2.1

theorem mapM_instantiate (hcatalog : l.catalog = {}) {loaded : List (LoadedMod σ)}
    (hp : p.host.files = t) (h : mods.mapM l.instantiate p = .ok loaded q) :
    q.host.files = t ∧ (∀ m ∈ mods, t.isFile m.manifestPath) ∧
      loaded = mods.map (.ofManifest t) := by
  refine mapM_eq_map (I := fun q ↦ q.host.files = t) hp (fun m _ p loaded q hp hm ↦ ?_) h
  obtain ⟨hq, -, hloaded⟩ := instantiate_eq_ok hcatalog hm
  subst hp
  exact ⟨hq, isFile_manifest hcatalog hm, hloaded⟩

end Manifests

/-- A tree comes from another one by what a run writes before it stores its fingerprint. -/
structure Provides (l : Patcher σ) (t t' : FileTree) : Prop where
  written : t' = t ∨ ∃ content, t.write l.config.patchedImagePath content = .ok t'
  exists_image : t'.existsAt l.config.patchedImagePath

theorem provideImage_eq_ok {rebuilt : Bool} (hp : p.host.files = t)
    (h : l.provideImage (mods.map (.ofManifest t)) f p = .ok rebuilt q) :
    l.Provides t q.host.files := by
  obtain ⟨stale, p₁, hread, h⟩ := bind_eq_ok_iff.mp h
  obtain ⟨hstale, rfl⟩ := reading_eq_ok_iff.mp hread
  cases stale with
  | false =>
    cases h
    exact ⟨.inl hp, (isStale_eq_false_iff.mp hstale).2⟩
  | true =>
    obtain ⟨image, p₂, hrebuild, h⟩ := bind_eq_ok_iff.mp h
    obtain ⟨_, p₃, hstore, h⟩ := bind_eq_ok_iff.mp h
    cases h
    obtain ⟨t', hstored, rfl⟩ := writing_eq_ok_iff.mp hstore
    obtain ⟨_, -, hwrite⟩ := Image.store_eq_ok hstored
    rw [files_rebuild hp hrebuild] at hwrite
    exact ⟨.inr ⟨_, hwrite⟩, existsAt_iff.mpr ⟨_, entryAt?_write_self hwrite⟩⟩

theorem runMods_eq_ok (hcatalog : l.catalog = {}) {outcome : Outcome}
    (h : l.runMods mods p = .ok outcome q) : ∃ f t',
      (∃ ws, l.fingerprint p.host.files mods p.host.warnings = .ok f ws) ∧
      (∃ p₁ p₂ loaded, p₁.host.files = p.host.files ∧
        mods.mapM l.instantiate p₁ = .ok loaded p₂) ∧
      l.Provides p.host.files t' ∧ f.save l.config.fingerprintPath t' = .ok () q.host.files ∧
      outcome.image = l.config.patchedImage ∧ outcome.mods = mods.map Mod.id := by
  obtain ⟨f, p₁, hsurvey, h⟩ := bind_eq_ok_iff.mp h
  obtain ⟨ws, hf, rfl⟩ := surveying_eq_ok_iff.mp hsurvey
  obtain ⟨loaded, p₂, hloaded, h⟩ := bind_eq_ok_iff.mp h
  obtain ⟨hp₂, -, rfl⟩ := mapM_instantiate hcatalog rfl hloaded
  obtain ⟨rebuilt, p₃, hprovide, h⟩ := bind_eq_ok_iff.mp h
  obtain ⟨_, p₄, hstart, h⟩ := bind_eq_ok_iff.mp h
  obtain ⟨_, p₅, hwrite, h⟩ := bind_eq_ok_iff.mp h
  cases h
  obtain ⟨t', hsave, rfl⟩ := writing_eq_ok_iff.mp hwrite
  obtain ⟨p₄', hstart', hhost⟩ := forM_start (σ := σ) mods p.host.files p₃
  obtain rfl : p₄ = p₄' := by
    rw [hstart] at hstart'
    cases hstart'
    rfl
  rw [hhost] at hsave
  refine ⟨f, _, ⟨ws, hf⟩, ⟨_, p₂, _, ?_, hloaded⟩, provideImage_eq_ok hp₂ hprovide, hsave, ?_, ?_⟩
  all_goals rfl

theorem runMods_of_reuses (hcatalog : l.catalog = {}) {ws : List Warning} {t' : FileTree}
    (hf : l.fingerprint p.host.files mods p.host.warnings = .ok f ws)
    (hmods : ∀ p₁, p₁.host.files = p.host.files →
      ∃ loaded p₂, mods.mapM l.instantiate p₁ = .ok loaded p₂)
    (hreuses : l.config.Reuses p.host.files f)
    (hsave : f.save l.config.fingerprintPath p.host.files = .ok () t') :
    ∃ q, l.runMods mods p = .ok
        { image := l.config.patchedImage, rebuilt := false, mods := mods.map Mod.id } q ∧
      q.host.files = t' := by
  have hsurvey : surveying (fun t ↦ l.fingerprint t mods) p =
      .ok f { p with host := { p.host with warnings := ws } } :=
    surveying_eq_ok_iff.mpr ⟨ws, hf, rfl⟩
  obtain ⟨loaded, p₂, hloaded⟩ := hmods { p with host := { p.host with warnings := ws } } rfl
  obtain ⟨hp₂, -, rfl⟩ := mapM_instantiate hcatalog rfl hloaded
  have hprovide : l.provideImage (mods.map (.ofManifest p.host.files)) f p₂ =
      .ok false (p₂.noted (.reuse f)) := by
    rw [provideImage, reading_bind, hp₂, isStale_eq_false_iff.mpr hreuses]
    rfl
  obtain ⟨p₃, hstart, hhost⟩ := forM_start (σ := σ) mods p.host.files (p₂.noted (.reuse f))
  have hwrite : writing (f.save l.config.fingerprintPath) p₃ = .ok () (p₃.withFiles t') := by
    refine writing_eq_ok_iff.mpr ⟨t', ?_, rfl⟩
    rw [hhost]
    exact hp₂ ▸ hsave
  refine ⟨p₃.withFiles t', ?_, rfl⟩
  rw [runMods, bind_ok hsurvey, bind_ok hloaded, bind_ok hprovide, bind_ok hstart, bind_ok hwrite]
  rfl

namespace Provides

variable {t₁ t₂ : FileTree} (h : l.Provides t t₁)

include h

theorem extends_tree : Extends (l.config.WritesAt t.workingDirectory)
    (l.config.MakesAt t.workingDirectory) t t₁ := by
  rcases h.written with rfl | ⟨content, hwrite⟩
  · exact .refl t₁
  · exact .write hwrite (.inl rfl)

variable (hsave : f.save l.config.fingerprintPath t₁ = .ok () t₂)

include hsave

theorem extends_of_save : Extends (l.config.WritesAt t.workingDirectory)
    (l.config.MakesAt t.workingDirectory) t t₂ := by
  have hd := h.extends_tree.workingDirectory
  apply h.extends_tree.trans
  apply Fingerprint.extends_of_save (.inr (by rw [hd])) _ hsave
  intro path hpath
  exact ⟨path, hpath, by rw [hd]⟩

/-- The fingerprint that a run has stored is that of the patched image that there is. -/
theorem reuses (hapart : l.config.OutputsApartAt t.workingDirectory) (hf : f.trimmed = f) :
    l.config.Reuses t₂ f := by
  have hd := h.extends_tree.workingDirectory
  constructor
  · rw [Fingerprint.load_save hsave, hf]
  · have hextends : Extends (· = l.config.fingerprintPath.locationFrom t.workingDirectory)
        (fun _ ↦ True) t₁ t₂ := by
      apply Fingerprint.extends_of_save (by rw [hd]) (fun _ _ ↦ trivial) hsave
    obtain ⟨e, he⟩ := existsAt_iff.mp h.exists_image
    exact existsAt_iff.mpr ⟨e, hextends.entryAt? he (by rw [hd]; exact hapart)⟩

end Provides

theorem trimmed_of_fingerprint (hcatalog : l.catalog = {}) (hmods : mods ≠ [])
    (hmanifests : ∀ m ∈ mods, t.isFile m.manifestPath) {ws ws' : List Warning}
    (hf : l.fingerprint t mods ws = .ok f ws') : f.trimmed = f := by
  have htext : f.text = (l.inputs t mods).text l.exeName :=
    fingerprint_eq_ok hcatalog (fun m hm ↦ existsAt_of_isFile (hmanifests m hm)) hf
  exact Inputs.trimmed_eq (by simpa [inputs] using hmods) htext

theorem extendsOutside {t' : FileTree} (ht : t.WellFormed) {order : LoadOrder} {ws : List Warning}
    (horder : value? (l.loadOrder t) ws = some order) (hmods : order.mods ≠ [])
    (houtside : l.config.OutputsOutside t.workingDirectory order.mods)
    (hextends : Extends (l.config.WritesAt t.workingDirectory) (l.config.MakesAt t.workingDirectory)
      t t') :
    let root := l.config.modsPath.locationFrom t.workingDirectory
    ExtendsOutside (l.config.WritesAt t.workingDirectory) (l.config.MakesAt t.workingDirectory)
      l.config.modsPath root t t' ∧ ∀ m ∈ order.mods, m.LivesIn t root := by
  intro root
  obtain ⟨m, hm⟩ := List.exists_mem_of_ne_nil _ hmods
  obtain ⟨root', hlocate, hdir, -⟩ := LoadOrder.livesIn_of_mem ht horder hm
  obtain rfl : root' = root := locate_eq_ok hlocate
  refine ⟨⟨hextends, ht, hlocate, hdir, fun k hk hP ↦ houtside.outside k hP hk⟩, fun m hm ↦ ?_⟩
  obtain ⟨root', hlocate', -, hlives⟩ := LoadOrder.livesIn_of_mem ht horder hm
  rwa [locate_eq_ok hlocate'] at hlives

/-- Right after a run of some mods that succeeds, without registered code, another run succeeds with
the same mods, builds nothing and leaves everything as it is. -/
theorem run_again (hcatalog : l.catalog = {}) {h : Host σ} (ht : h.files.WellFormed)
    {order : LoadOrder} {ws : List Warning}
    (horder : l.loadOrder h.files h.warnings = .ok order ws) (hmods : order.mods ≠ [])
    (houtside : l.config.OutputsOutside h.files.workingDirectory order.mods)
    (hlists : l.config.SparesLists h.files.workingDirectory)
    {outcome : Outcome} {q : Progress σ} (hrun : l.run { host := h } = .ok outcome q) :
    ∃ q', l.run { host := q.host } = .ok { outcome with rebuilt := false } q' ∧
      ∀ path, q'.host.files.entryAt? path = q.host.files.entryAt? path := by
  rw [run_of_loadOrder (p := { host := h }) horder hmods] at hrun
  split at hrun
  swap
  · cases hrun
  rename_i hbase
  obtain ⟨f, t₁, ⟨ws', hf⟩, ⟨p₁, p₂, loaded, hp₁, hloaded⟩, hprovides, hsave, himage, hids⟩ :=
    runMods_eq_ok hcatalog hrun
  obtain ⟨-, hmanifests, -⟩ := mapM_instantiate hcatalog hp₁ hloaded
  have hextends := hprovides.extends_of_save hsave
  have hvalue : value? (l.loadOrder h.files) h.warnings = some order :=
    value?_eq_some.mpr ⟨ws, horder⟩
  obtain ⟨hout, hlives⟩ := extendsOutside ht hvalue hmods houtside hextends
  have huntouched (m : Mod) (hm : m ∈ order.mods) : m.Untouched
      (l.config.WritesAt h.files.workingDirectory)
      (l.config.modsPath.locationFrom h.files.workingDirectory) h.files :=
    ⟨hlives m hm, hmanifests m hm, houtside.builds m hm⟩
  -- the second run comes to the same load order, the same fingerprint and the same mods
  obtain ⟨ws₂, horder'⟩ := value?_eq_some.mp (hout.value?_load hlists q.host.warnings hvalue)
  have hbase' : q.host.files.isFile l.config.baseImagePath :=
    hextends.isFile hbase houtside.base
  obtain ⟨_, ws₃, hf', -, rfl⟩ :=
    hout.fingerprint_follows hcatalog huntouched houtside.base _ ws₂ trivial f ws' hf
  have hinstantiate (p : Progress σ) (hp : p.host.files = q.host.files) :
      ∃ loaded p', order.mods.mapM l.instantiate p = .ok loaded p' := by
    have hfollows := Follows.mapM fun m hm ↦ hout.instantiate_follows hcatalog (hlives m hm)
    obtain ⟨loaded', p', hloaded', -⟩ := hfollows p₁ p ⟨hp₁, hp⟩ loaded p₂ hloaded
    exact ⟨loaded', p', hloaded'⟩
  -- what it would store is what has been stored
  have hreuses := hprovides.reuses hsave houtside.apart
    (trimmed_of_fingerprint hcatalog hmods hmanifests hf)
  obtain ⟨t₃, hsave', hsame⟩ := Fingerprint.save_again hsave
  obtain ⟨q', hrun', hfiles⟩ := runMods_of_reuses hcatalog
    (p := { host := { q.host with warnings := ws₂ } }) hf' hinstantiate hreuses hsave'
  refine ⟨q', ?_, fun path ↦ by rw [hfiles, hsame]⟩
  rw [run_of_loadOrder (p := { host := q.host }) horder' hmods, if_pos hbase', hrun', himage, hids]

theorem run_ne_ok (hlist : p.host.files.isDirectory (l.config.modsPath.child allowListName))
    (outcome : Outcome) : l.run p ≠ .ok outcome q := by
  intro hrun
  rw [run_eq] at hrun
  split at hrun
  · obtain ⟨order, _, hsurvey, -⟩ := bind_eq_ok_iff.mp hrun
    obtain ⟨ws, horder, -⟩ := surveying_eq_ok_iff.mp hsurvey
    obtain ⟨_, allowed, _, -, hallowed, -⟩ :=
      LoadOrder.value?_load.mp (value?_eq_some.mpr ⟨ws, horder⟩)
    have he := isDirectory_iff.mp hlist
    rw [readList, if_pos (existsAt_iff.mpr ⟨_, he⟩)] at hallowed
    split at hallowed
    · cases hallowed
    · rename_i text htext
      obtain ⟨content, hread, -⟩ := readText_eq_ok_iff.mp htext
      rw [read_eq_ok_iff, he] at hread
      cases hread
  · cases hrun

end Patcher

section Example

theorem oneModTree_wellFormed (metadata manifest : String) :
    (oneModTree metadata manifest).WellFormed := by
  have hlocations : (oneModTree metadata manifest).entries.map Prod.fst =
      [["data.win"], ["bcpatch"], ["bcpatch", "mods"], ["bcpatch", "mods", "m"],
        ["bcpatch", "mods", "m", "mod.json"], ["bcpatch", "mods", "m", "patches.json"],
        ["bcpatch", "mods", "m", "build"]] := rfl
  apply WellFormed.of_entries
  · rw [hlocations]
    decide
  · rfl
  · simp only [oneModTree, List.forall_mem_cons]
    refine ⟨⟨rfl, ?_⟩, ⟨rfl, ?_⟩, ⟨rfl, ?_⟩, ⟨rfl, ?_⟩, ⟨rfl, ?_⟩, ⟨rfl, ?_⟩, ⟨rfl, ?_⟩, by simp⟩
    all_goals decide

def silentMod : Mod where
  metadata := { name := "", id := "m", version := "" }
  directory := ⟨"./bcpatch/mods/m"⟩

def oneModHost : Host Unit where
  files := oneModTree (metadataText "m" "") emptyManifest
  state := ()

theorem oneMod_loadOrder {l : Patcher Unit} (hmods : l.config.modsPath = ⟨"./bcpatch/mods"⟩) :
    ∃ ws, l.loadOrder oneModHost.files oneModHost.warnings = .ok { mods := [silentMod] } ws := by
  rw [← value?_eq_some, Patcher.loadOrder, hmods]
  decide +kernel

theorem oneMod_outputsOutside {c : Config}
    (hmods : c.modsPath.locationFrom [] = ["bcpatch", "mods"])
    (hbase : c.baseImagePath.locationFrom [] = ["data.win"])
    (himage : c.patchedImagePath.locationFrom [] = ["cache.win"])
    (hfingerprint : c.fingerprintPath.locationFrom [] = ["bcpatch", "cache.fingerprint"]) :
    c.OutputsOutside [] [silentMod] := by
  constructor
  · rw [Config.OutputsApartAt, himage, hfingerprint]
    decide
  · intro l hl
    rw [Config.WritesAt, himage, hfingerprint] at hl
    rw [hmods]
    rcases hl with rfl | rfl
    all_goals decide
  · rw [Config.WritesAt, himage, hfingerprint, hbase]
    decide
  · intro m hm hnames
    rw [List.mem_singleton.mp hm] at hnames
    cases hnames

theorem default_sparesLists : ({} : Config).SparesLists [] := by
  simp only [Config.SparesLists, Config.MakesAt]
  decide

theorem run_again_oneMod : ∃ outcome q q',
    manifestsOnly.run { host := oneModHost } = .ok outcome q ∧ outcome.rebuilt = true ∧
      manifestsOnly.run { host := q.host } = .ok { outcome with rebuilt := false } q' ∧
      ∀ path, q'.host.files.entryAt? path = q.host.files.entryAt? path := by
  have hrebuilt : (value? manifestsOnly.run { host := oneModHost }).any (·.rebuilt) := by
    decide +kernel
  cases hvalue : value? manifestsOnly.run { host := oneModHost } with
  | none => simp [hvalue] at hrebuilt
  | some outcome =>
    rw [hvalue, Option.any_some] at hrebuilt
    obtain ⟨q, hrun⟩ := value?_eq_some.mp hvalue
    obtain ⟨ws, horder⟩ := oneMod_loadOrder (l := manifestsOnly) (by decide)
    have houtside : manifestsOnly.config.OutputsOutside [] [silentMod] :=
      oneMod_outputsOutside (by decide) (by decide) (by decide) (by decide)
    obtain ⟨q', hagain, hsame⟩ := Patcher.run_again (l := manifestsOnly) (h := oneModHost) rfl
      (oneModTree_wellFormed _ _) horder (by simp) houtside default_sparesLists hrun
    exact ⟨outcome, q, q', hrun, hrebuilt, hagain, hsame⟩

/-- The stored fingerprint is in the usual place, on a way through the mods. -/
def detourPatcher : Patcher Unit where
  zstd := Image.quotingZstd
  config := { fingerprint := ⟨"bcpatch/mods/whitelist.txt/../../cache.fingerprint"⟩ }
  exeName := ""

/-- The first run makes a directory where the second looks for a list. -/
theorem not_run_again_detour : ∃ order ws outcome q,
    detourPatcher.catalog = {} ∧ oneModHost.files.WellFormed ∧
      detourPatcher.loadOrder oneModHost.files oneModHost.warnings = .ok order ws ∧
      order.mods ≠ [] ∧
      detourPatcher.config.OutputsOutside oneModHost.files.workingDirectory order.mods ∧
      detourPatcher.run { host := oneModHost } = .ok outcome q ∧
      ∀ outcome' q', detourPatcher.run { host := q.host } ≠ .ok outcome' q' := by
  have hsucceeds : succeeds detourPatcher.run { host := oneModHost } := by decide +kernel
  have hlist : (stateAfter detourPatcher.run { host := oneModHost }).host.files.isDirectory
      (detourPatcher.config.modsPath.child allowListName) := by
    decide +kernel
  obtain ⟨outcome, q, hrun⟩ := succeeds_iff.mp hsucceeds
  rw [stateAfter_ok hrun] at hlist
  obtain ⟨ws, horder⟩ := oneMod_loadOrder (l := detourPatcher) (by decide)
  have houtside : detourPatcher.config.OutputsOutside [] [silentMod] :=
    oneMod_outputsOutside (by decide) (by decide) (by decide) (by decide)
  refine ⟨_, ws, outcome, q, rfl, oneModTree_wellFormed _ _, horder, by simp, houtside, hrun, ?_⟩
  intro outcome' q'
  exact Patcher.run_ne_ok (p := { host := q.host }) hlist outcome'

end Example

end HookPatch
