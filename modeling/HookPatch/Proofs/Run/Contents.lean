import HookPatch.Proofs.Run.Identity

namespace HookPatch

variable {σ σ' : Type} {t t' : FileTree} {m : Mod}

namespace Mod

/-- The names and contents of the scripts of a mod, in order. -/
def HasScripts (t : FileTree) (m : Mod) (scripts : List (String × ByteArray)) : Prop :=
  ∃ paths, m.scriptPaths t = .ok paths ∧
    List.Forall₂ (fun path s ↦ path.fileName? = some s.1 ∧ t.read path = .ok s.2) paths scripts

structure SameContents (t t' : FileTree) (m : Mod) : Prop where
  build : ∀ content, t.read m.buildPath = .ok content ↔ t'.read m.buildPath = .ok content
  scripts : ∃ scripts, m.HasScripts t scripts ∧ m.HasScripts t' scripts
  environment : ∀ env, Environment.load t m = .ok env ↔ Environment.load t' m = .ok env

theorem hasScripts_nil_iff : m.HasScripts t [] ↔ m.scriptPaths t = .ok [] := by
  simp [HasScripts]

theorem hasScripts_inputs {paths : List Path} (h : m.scriptPaths t = .ok paths) :
    m.HasScripts t (m.inputs t).scripts := by
  refine ⟨paths, h, ?_⟩
  rw [scripts_eq h, List.forall₂_map_right_iff, List.forall₂_same]
  intro path hpath
  obtain ⟨hfile, hextension⟩ := isFile_of_mem_scriptPaths h hpath
  obtain ⟨name, hname, -⟩ := Option.bind_eq_some_iff.mp hextension
  rw [hname]
  exact ⟨rfl, FileTree.read_content hfile⟩

theorem HasScripts.eq_inputs {scripts : List (String × ByteArray)} (h : m.HasScripts t scripts) :
    (m.inputs t).scripts = scripts := by
  obtain ⟨paths, hpaths, hscripts⟩ := h
  rw [scripts_eq hpaths, ← List.forall₂_eq_eq_eq, List.forall₂_map_left_iff]
  refine hscripts.imp fun path s ⟨hname, hread⟩ ↦ ?_
  rw [hname, FileTree.content_eq hread]
  rfl

end Mod

namespace Environment

def IsSource (s : String × ByteArray) (source : String × String) : Prop :=
  s.1 = source.1 ∧ String.fromUTF8? s.2 = some source.2

theorem readScript_eq_ok_iff {path : Path} {s : String × ByteArray} {source : String × String}
    (hname : path.fileName? = some s.1) (hread : t.read path = .ok s.2) :
    readScript t path = .ok source ↔ IsSource s source := by
  obtain ⟨name, text⟩ := source
  have htext : t.readText path = .ok text ↔ String.fromUTF8? s.2 = some text := by
    simp [FileTree.readText_eq_ok_iff, hread]
  rw [IsSource, ← htext, readScript, hname]
  cases t.readText path <;> simp

theorem readScripts_eq_ok_iff {paths : List Path} {scripts : List (String × ByteArray)}
    (h : List.Forall₂ (fun path s ↦ path.fileName? = some s.1 ∧ t.read path = .ok s.2) paths scripts)
    {sources : List (String × String)} :
    paths.mapM (readScript t) = .ok sources ↔ List.Forall₂ IsSource scripts sources := by
  induction h generalizing sources with
  | nil => simp [pure, Except.pure, eq_comm]
  | cons hs _ ih =>
    simp only [List.mapM_cons, except_bind_eq_ok_iff, readScript_eq_ok_iff hs.1 hs.2, ih,
      List.forall₂_cons_left_iff, pure, Except.pure, Except.ok.injEq]
    simp only [exists_and_left, eq_comm]

theorem load_eq_ok_iff {scripts : List (String × ByteArray)} (h : m.HasScripts t scripts)
    {env : Environment} :
    load t m = .ok env ↔ env.mod = m ∧ List.Forall₂ IsSource scripts env.scripts := by
  obtain ⟨paths, hpaths, hscripts⟩ := h
  obtain ⟨mod, sources⟩ := env
  rw [load, except_bind_eq_ok_iff]
  simp only [hpaths, Except.ok.injEq, exists_eq_left', except_bind_eq_ok_iff,
    readScripts_eq_ok_iff hscripts, pure, Except.pure, mk.injEq]
  constructor
  · rintro ⟨_, hsources, rfl, rfl⟩
    exact ⟨rfl, hsources⟩
  · rintro ⟨rfl, hsources⟩
    exact ⟨sources, hsources, rfl, rfl⟩

end Environment

structure Mod.CanHash (t : FileTree) (m : Mod) : Prop where
  build : t.isFile m.buildPath ∨ m.namesBuildFile = false ∧ t.existsAt m.buildPath = false
  scripts : ∃ paths, m.scriptPaths t = .ok paths

section Computed

variable {catalog : Catalog σ} {catalog' : Catalog σ'}

theorem isFile_of_contentHash {path : Path} {hash : String} (h : contentHash t path = .ok hash) :
    t.isFile path := by
  rw [contentHash] at h
  split at h
  · cases h
  · rename_i content hread
    exact FileTree.isFile_of_read hread

theorem Mod.canHash {build scripts : String} (hbuild : m.buildHash t = .ok build)
    (hscripts : m.scriptHash t = .ok scripts) : m.CanHash t where
  build := by
    rw [buildHash] at hbuild
    split at hbuild
    · rename_i hnone
      exact .inr (by simpa using hnone)
    · exact .inl (isFile_of_contentHash hbuild)
  scripts := by
    rw [scriptHash] at hscripts
    obtain ⟨paths, hpaths, -⟩ := except_bind_eq_ok_iff.mp hscripts
    exact ⟨paths, hpaths⟩

theorem Fingerprint.canHash_of_part {s : String} {ws ws' : List Warning}
    (h : part t catalog m ws = .ok s ws') : m.CanHash t := by
  rw [part] at h
  obtain ⟨build, ws₁, hbuild, h⟩ := bind_eq_ok_iff.mp h
  obtain ⟨hbuild, -⟩ := ofExcept_eq_ok_iff.mp hbuild
  split at h
  · obtain ⟨_, ws₂, -, h⟩ := bind_eq_ok_iff.mp h
    obtain ⟨scripts, ws₃, hscripts, -⟩ := bind_eq_ok_iff.mp h
    exact Mod.canHash hbuild (ofExcept_eq_ok_iff.mp hscripts).1
  · obtain ⟨scripts, ws₃, hscripts, -⟩ := bind_eq_ok_iff.mp h
    exact Mod.canHash hbuild (ofExcept_eq_ok_iff.mp hscripts).1

theorem Fingerprint.canHash_of_compute {exeName version : String} {baseImage : Path}
    {mods : List Mod} {f : Fingerprint} {ws ws' : List Warning}
    (h : compute t catalog exeName baseImage version mods ws = .ok f ws') :
    t.isFile baseImage ∧ ∀ m ∈ mods, m.CanHash t := by
  rw [compute] at h
  obtain ⟨base, ws₁, hbase, h⟩ := bind_eq_ok_iff.mp h
  obtain ⟨parts, ws₂, hparts, -⟩ := bind_eq_ok_iff.mp h
  have hpart (m : Mod) (_ : m ∈ mods) (ws : List Warning) (s : String) (ws' : List Warning)
      (_ : True) (hs : part t catalog m ws = .ok s ws') :
      True ∧ m.CanHash t ∧ s = (m.values t catalog).text :=
    ⟨trivial, canHash_of_part hs, part_eq_values hs⟩
  obtain ⟨-, hmods, -⟩ := mapM_eq_map trivial hpart hparts
  exact ⟨isFile_of_contentHash (ofExcept_eq_ok_iff.mp hbase).1, hmods⟩

namespace Mod

theorem CanHash.hasScripts (h : m.CanHash t) : m.HasScripts t (m.inputs t).scripts := by
  obtain ⟨paths, hpaths⟩ := h.scripts
  exact hasScripts_inputs hpaths

theorem CanHash.build_eq_some_iff (h : m.CanHash t) {content : ByteArray} :
    (m.values t catalog).build = some content ↔ t.read m.buildPath = .ok content := by
  rw [values]
  rcases h.build with hfile | ⟨hnames, hexists⟩
  · simp [FileTree.existsAt_of_isFile hfile, FileTree.read_content hfile]
  · have hread : t.read m.buildPath ≠ .ok content := by
      intro hread
      rw [FileTree.existsAt_of_isFile (FileTree.isFile_of_read hread)] at hexists
      cases hexists
    simp [hnames, hexists, hread]

theorem CanHash.isSome_build (h : m.CanHash t) :
    (m.values t catalog).build.isSome = t.isFile m.buildPath := by
  rw [Bool.eq_iff_iff, Option.isSome_iff_exists, FileTree.isFile_iff]
  exact exists_congr fun content ↦ h.build_eq_some_iff.trans FileTree.read_eq_ok_iff

/-- The parts of what a mod adds end where they did if it still has a build file or still has none, and
likewise for scripts. -/
theorem CanHash.layout_eq (h : m.CanHash t) (h' : m.CanHash t')
    (hversion : catalog.buildVersion? m.id = catalog'.buildVersion? m.id)
    (hbuild : t.isFile m.buildPath ↔ t'.isFile m.buildPath)
    (hscripts : m.HasScripts t [] ↔ m.HasScripts t' []) :
    (m.values t catalog).layout = (m.values t' catalog').layout := by
  have hbuild : (m.values t catalog).build.isSome = (m.values t' catalog').build.isSome := by
    rw [h.isSome_build, h'.isSome_build, Bool.eq_iff_iff]
    exact hbuild
  have hempty : (m.inputs t).scripts.isEmpty = (m.inputs t').scripts.isEmpty := by
    rw [Bool.eq_iff_iff, List.isEmpty_iff, List.isEmpty_iff]
    constructor
    · exact fun hnil ↦ (hscripts.mp (hnil ▸ h.hasScripts)).eq_inputs
    · exact fun hnil ↦ (hscripts.mpr (hnil ▸ h'.hasScripts)).eq_inputs
  rw [ModValues.layout, ModValues.layout, hbuild]
  simp only [values, hversion, hempty]

theorem CanHash.sameValues_iff (h : m.CanHash t) (h' : m.CanHash t')
    (hversion : catalog.buildVersion? m.id = catalog'.buildVersion? m.id) :
    m.values t catalog = m.values t' catalog' ↔ m.SameContents t t' := by
  constructor
  · intro hvalues
    have hscripts : (m.inputs t).scripts = (m.inputs t').scripts := congrArg ModValues.scripts hvalues
    refine ⟨fun content ↦ ?_, ⟨_, h.hasScripts, hscripts ▸ h'.hasScripts⟩, fun env ↦ ?_⟩
    · rw [← h.build_eq_some_iff, hvalues, h'.build_eq_some_iff]
    · rw [Environment.load_eq_ok_iff h.hasScripts, hscripts, ← Environment.load_eq_ok_iff h'.hasScripts]
  · intro hcontents
    obtain ⟨scripts, hscripts, hscripts'⟩ := hcontents.scripts
    refine ModValues.ext rfl rfl hversion (Option.ext fun content ↦ ?_) ?_
    · rw [h.build_eq_some_iff, h'.build_eq_some_iff]
      exact hcontents.build content
    · exact hscripts.eq_inputs.trans hscripts'.eq_inputs.symm

end Mod

end Computed

/-- Where the same mods have build files and the same mods have scripts, two fingerprints of a load
order are the same just when the base images and all contents of the mods are. -/
theorem Fingerprint.eq_iff_sameContents {catalog : Catalog σ} {catalog' : Catalog σ'}
    {exeName version : String} {baseImage baseImage' : Path} {mods : List Mod} {f f' : Fingerprint}
    {ws₁ ws₂ ws₁' ws₂' : List Warning}
    (h : compute t catalog exeName baseImage version mods ws₁ = .ok f ws₂)
    (h' : compute t' catalog' exeName baseImage' version mods ws₁' = .ok f' ws₂')
    (hversions : ∀ m ∈ mods, catalog.buildVersion? m.id = catalog'.buildVersion? m.id)
    (hbuilds : ∀ m ∈ mods, t.isFile m.buildPath ↔ t'.isFile m.buildPath)
    (hscripts : ∀ m ∈ mods, m.HasScripts t [] ↔ m.HasScripts t' [])
    (hhash : NoCollision (values t catalog exeName baseImage version mods).hashed
      (values t' catalog' exeName baseImage' version mods).hashed) :
    f = f' ↔ (∃ content, t.read baseImage = .ok content ∧ t'.read baseImage' = .ok content) ∧
      ∀ m ∈ mods, m.SameContents t t' := by
  obtain ⟨hbase, hmods⟩ := canHash_of_compute h
  obtain ⟨hbase', hmods'⟩ := canHash_of_compute h'
  have hbases : t.content baseImage = t'.content baseImage' ↔
      ∃ content, t.read baseImage = .ok content ∧ t'.read baseImage' = .ok content := by
    simp [FileTree.read_content hbase, FileTree.read_content hbase', eq_comm]
  have hlayout : (values t catalog exeName baseImage version mods).layout =
      (values t' catalog' exeName baseImage' version mods).layout := by
    simp only [RunValues.layout, values, List.map_map, RunLayout.mk.injEq, true_and]
    exact List.map_congr_left fun m hm ↦ (hmods m hm).layout_eq (hmods' m hm) (hversions m hm)
      (hbuilds m hm) (hscripts m hm)
  have hvalues : f = f' ↔ values t catalog exeName baseImage version mods =
      values t' catalog' exeName baseImage' version mods := by
    have htext := text_eq_values h
    have htext' := text_eq_values h'
    constructor
    · rintro rfl
      exact RunValues.eq_of_text hhash hlayout (htext.symm.trans htext')
    · intro hsame
      cases f
      cases f'
      rw [Fingerprint.mk.injEq]
      exact htext.trans ((congrArg RunValues.text hsame).trans htext'.symm)
  rw [hvalues, ← hbases, RunValues.ext_iff]
  simp only [values, true_and, List.map_inj_left]
  refine and_congr_right fun _ ↦ forall₂_congr fun m hm ↦ ?_
  exact (hmods m hm).sameValues_iff (hmods' m hm) (hversions m hm)

section Example

def scriptTree (source : String) : FileTree where
  entries := [(["data.win"], .file .empty), (["m"], .directory), (["m", "scripts"], .directory),
    (["m", "scripts", "score.asm"], .file source.toUTF8)]

theorem fingerprint_ne_of_script : ∃ f f' ws ws',
    namedFingerprint (scriptTree "push.l 1\nret\n") (namedMod "A" "1") [] = .ok f ws ∧
      namedFingerprint (scriptTree "push.l 2\nret\n") (namedMod "A" "1") [] = .ok f' ws' ∧
      f ≠ f' := by
  let m := namedMod "A" "1"
  let t := scriptTree "push.l 1\nret\n"
  let t' := scriptTree "push.l 2\nret\n"
  have hsucceeds : succeeds (namedFingerprint t m) [] ∧ succeeds (namedFingerprint t' m) [] := by
    decide +kernel
  obtain ⟨f, ws, h⟩ := succeeds_iff.mp hsucceeds.1
  obtain ⟨f', ws', h'⟩ := succeeds_iff.mp hsucceeds.2
  refine ⟨f, f', ws, ws', h, h', fun hf ↦ ?_⟩
  have hhash : NoCollision (namedValues t m).hashed (namedValues t' m).hashed := by decide +kernel
  have hbuild : t.isFile m.buildPath ↔ t'.isFile m.buildPath := by decide +kernel
  have hscripts : m.HasScripts t [] ↔ m.HasScripts t' [] := by
    rw [Mod.hasScripts_nil_iff, Mod.hasScripts_nil_iff]
    decide +kernel
  have hsame : m.SameContents t t' :=
    ((Fingerprint.eq_iff_sameContents h h' (by simp) (by simpa using hbuild)
      (by simpa using hscripts) hhash).mp hf).2 m List.mem_cons_self
  obtain ⟨scripts, hread, hread'⟩ := hsame.scripts
  have hcontents : (m.inputs t).scripts.map (·.2.data) = (m.inputs t').scripts.map (·.2.data) := by
    rw [hread.eq_inputs, hread'.eq_inputs]
  revert hcontents
  decide +kernel

end Example

end HookPatch
