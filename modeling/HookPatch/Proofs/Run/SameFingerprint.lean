import HookPatch.Proofs.ImageFile
import HookPatch.Proofs.Mod.Discovery
import HookPatch.Proofs.Run.Decoding
import HookPatch.Proofs.Run.StoredFingerprint

namespace HookPatch

namespace ModInputs

variable {r r' : ModInputs}

/-- Two mods that agree in what the fingerprint does not tell. -/
structure SameUntold (r r' : ModInputs) : Prop where
  label : r.label.length = r'.label.length
  manifest : (r.build = r.manifest ∧ r'.build = r'.manifest) ∨
    (r.manifest = r'.manifest ∧ (r.scripts = [] ↔ r'.scripts = []))
  id : r.exports = [] ∨ r.id = r'.id

/-- The text that is hashed for scripts is no manifest, since a zero stands behind every name. -/
theorem manifest_ne_scriptText (hmanifest : r.manifest?.isSome) (hscripts : r'.scripts ≠ []) :
    r.manifest ≠ r'.scriptText.toUTF8 := by
  intro heq
  rw [manifest?, heq, fromUTF8?_toUTF8, Option.bind_some] at hmanifest
  obtain ⟨manifest, hmanifest⟩ := Option.isSome_iff_exists.mp hmanifest
  obtain ⟨j, hj, -⟩ := Option.bind_eq_some_iff.mp hmanifest
  refine Json.zero_not_mem_of_ofText? hj ?_
  obtain ⟨s, hs⟩ := List.exists_mem_of_ne_nil _ hscripts
  rw [toList_scriptText, List.mem_flatMap]
  exact ⟨s, hs, by simp [record]⟩

theorem build_ne_scriptText (hhash : NoCollision r.hashed r'.hashed)
    (h : r.build = r.manifest ∨ (r.scripts = [] → r'.scripts = []))
    (hmanifest : r.manifest?.isSome) (hr : r.scripts = []) (hr' : r'.scripts ≠ []) :
    Sha256.hex r.build ≠ Sha256.hex r'.scriptText.toUTF8 := by
  intro heq
  have heq : r.build = r'.scriptText.toUTF8 := by
    refine hhash _ List.mem_cons_self _ ?_ heq
    simp [hashed_of_ne_nil hr']
  rcases h with hbuild | hscripts
  · exact manifest_ne_scriptText hmanifest hr' (hbuild.symm.trans heq)
  · exact hr' (hscripts hr)

end ModInputs

theorem NoCollision.symm {cs cs' : List ByteArray} (h : NoCollision cs cs') : NoCollision cs' cs :=
  fun c hc c' hc' heq ↦ (h c' hc' c hc heq.symm).symm

theorem NoCollision.mono {cs cs' ds ds' : List ByteArray} (h : NoCollision cs cs') (hcs : ds ⊆ cs)
    (hcs' : ds' ⊆ cs') : NoCollision ds ds' :=
  fun d hd d' hd' ↦ h d (hcs hd) d' (hcs' hd')

namespace ModInputs

variable {r r' : ModInputs}

theorem SameUntold.aligned (hhash : NoCollision r.hashed r'.hashed) (hmanifest : r.manifest?.isSome)
    (hmanifest' : r'.manifest?.isSome) (h : r.SameUntold r') : r.Aligned r' where
  label := h.label
  build := by
    refine build_ne_scriptText hhash ?_ hmanifest
    exact h.manifest.imp And.left fun h ↦ h.2.mp
  build' := by
    refine build_ne_scriptText hhash.symm ?_ hmanifest'
    exact h.manifest.imp And.right fun h ↦ h.2.mpr

/-- Without collisions, mods with the same hashes that agree in what these do not tell are the same
to a rebuild. -/
theorem SameUntold.sameRead (hhash : NoCollision r.hashed r'.hashed)
    (hzero : ∀ s ∈ r.scripts, '\x00' ∉ s.1.toList)
    (hzero' : ∀ s ∈ r'.scripts, '\x00' ∉ s.1.toList) (h : r.SameUntold r')
    (hsame : r.SameHashes r') : r.SameRead r' := by
  obtain ⟨hbuild, hscripts⟩ := hsame.eq hhash hzero hzero'
  refine ⟨?_, hscripts, h.id⟩
  rcases h.manifest with ⟨hr, hr'⟩ | ⟨hmanifest, -⟩
  · rw [← hr, ← hr', hbuild]
  · exact hmanifest

end ModInputs

theorem ModInputs.hashed_subset {i : Inputs} {r : ModInputs} (h : r ∈ i.mods) :
    r.hashed ⊆ i.hashed :=
  fun _ hc ↦ List.mem_cons_of_mem _ (List.mem_flatMap.mpr ⟨r, h, hc⟩)

/-- Where the text of a fingerprint is the same, so are the hash of the base image and the parts of
all mods together. -/
theorem Inputs.text_inj {i i' : Inputs} {exeName : String} (h : i.text exeName = i'.text exeName) :
    Sha256.hex i.base = Sha256.hex i'.base ∧
      String.join (i.mods.map ModInputs.text) = String.join (i'.mods.map ModInputs.text) := by
  have h := congrArg String.toList h
  simp only [text, String.toList_append, List.append_assoc] at h
  obtain ⟨hbase, h⟩ := List.append_inj (List.append_cancel_left h)
    (by rw [Sha256.length_hex, Sha256.length_hex])
  exact ⟨String.toList_inj.mp hbase, String.toList_inj.mp (List.append_cancel_left h)⟩

theorem Patcher.zero_not_mem_script {σ : Type} {l : Patcher σ} {t : FileTree} {mods : List Mod}
    {r : ModInputs} (hr : r ∈ (l.inputs t mods).mods) : ∀ s ∈ r.scripts, '\x00' ∉ s.1.toList := by
  obtain ⟨m, -, rfl⟩ := List.mem_map.mp hr
  exact fun s ↦ Mod.zero_not_mem_script

/-- Without registered mods, two rebuilds with the same fingerprint give the same image, if their mods
agree in what the fingerprint does not tell and no two contents that are hashed collide. -/
theorem Patcher.image_eq_of_fingerprint {σ : Type} {l : Patcher σ} (hcatalog : l.catalog = {})
    {t t' : FileTree} {mods mods' : List Mod} {f : Fingerprint} {image image' : Image}
    (h : l.Rebuilds t mods f image) (h' : l.Rebuilds t' mods' f image')
    (hhash : NoCollision (l.inputs t mods).hashed (l.inputs t' mods').hashed)
    (huntold : List.Forall₂ ModInputs.SameUntold (l.inputs t mods).mods (l.inputs t' mods').mods) :
    image = image' := by
  -- the parts of the fingerprint have to be aligned before their hashes can be compared
  obtain ⟨hbase, hparts⟩ := Inputs.text_inj ((h.text_eq hcatalog).symm.trans (h'.text_eq hcatalog))
  have hmods : ∀ r ∈ (l.inputs t mods).mods, ∀ r' ∈ (l.inputs t' mods').mods,
      NoCollision r.hashed r'.hashed := fun r hr r' hr' ↦
    hhash.mono (ModInputs.hashed_subset hr) (ModInputs.hashed_subset hr')
  have haligned : List.Forall₂ ModInputs.Aligned (l.inputs t mods).mods (l.inputs t' mods').mods :=
    forall₂_imp_of_mem huntold fun r hr r' hr' hr'' ↦
      hr''.aligned (hmods r hr r' hr') (h.isSome_manifest hcatalog hr) (h'.isSome_manifest hcatalog hr')
  have hread := forall₂_imp_of_mem huntold fun r hr r' hr' hr'' ↦
    hr''.sameRead (hmods r hr r' hr') (zero_not_mem_script hr) (zero_not_mem_script hr')
  refine h.image_eq hcatalog h' ?_ ?_
  · exact hhash _ List.mem_cons_self _ List.mem_cons_self hbase
  · exact List.Forall₂.mp (fun r r' hr hsame ↦ hr hsame) hread
      (ModInputs.sameHashes_of_join haligned hparts)

section Example

def oneModTree (metadata manifest : String) : FileTree where
  entries := [(["data.win"], .file "\x7b\"code\":[]\x7d".toUTF8), (["bcpatch"], .directory),
    (["bcpatch", "mods"], .directory), (["bcpatch", "mods", "m"], .directory),
    (["bcpatch", "mods", "m", "mod.json"], .file metadata.toUTF8),
    (["bcpatch", "mods", "m", "patches.json"], .file manifest.toUTF8),
    (["bcpatch", "mods", "m", "build"], .file .empty)]

def metadataText (id further : String) : String :=
  "\x7b\"name\":\"\",\"id\":\"" ++ id ++ "\",\"version\":\"\"" ++ further ++ "\x7d"

def ownBuildMetadata : String := metadataText "" ",\"artifact\":\"build\""

def emptyManifest : String := "\x7b\x7d"

def exportManifest : String := "\x7b\"interop\":[\x7b\"name\":\"f\",\"argc\":0,\"symbol\":\"\"\x7d]\x7d"

def manifestsOnly : Patcher Unit := { config := {}, zstd := Image.quotingZstd, exeName := "" }

def Patcher.forced? (l : Patcher Unit) (t : FileTree) : Option (List Mod × Fingerprint × Image) :=
  value? l.forcedRebuild { host := { files := t, state := () } }

theorem Patcher.rebuilds_of_forced? {l : Patcher Unit} {t : FileTree} {mods : List Mod}
    {f : Fingerprint} {image : Image} (h : l.forced? t = some (mods, f, image)) :
    l.Rebuilds t mods f image := by
  obtain ⟨q, h⟩ := value?_eq_some.mp h
  exact ⟨_, q, rfl, h⟩

/-- Whether rebuilds of two trees have the same fingerprint and different images, though no contents
collide. -/
def Patcher.Confuses (l : Patcher Unit) (t t' : FileTree) : Prop :=
  ∃ mods mods' f image image', l.Rebuilds t mods f image ∧ l.Rebuilds t' mods' f image' ∧
    mods ≠ [] ∧ mods' ≠ [] ∧ NoCollision (l.inputs t mods).hashed (l.inputs t' mods').hashed ∧
    image ≠ image'

instance (cs cs' : List ByteArray) : Decidable (NoCollision cs cs') :=
  decidable_of_iff (∀ c ∈ cs, ∀ c' ∈ cs', c.data = c'.data ∨ Sha256.hex c ≠ Sha256.hex c') <| by
    simp only [NoCollision, ← ByteArray.ext_iff, or_iff_not_imp_right, not_not]

theorem Patcher.confuses_of_forced? {l : Patcher Unit} {t t' : FileTree}
    (h : (l.forced? t).any fun (mods, f, image) ↦ (l.forced? t').any fun (mods', f', image') ↦
      f = f' ∧ mods ≠ [] ∧ mods' ≠ [] ∧
        NoCollision (l.inputs t mods).hashed (l.inputs t' mods').hashed ∧ image ≠ image') :
    l.Confuses t t' := by
  cases ht : l.forced? t with
  | none => simp [ht] at h
  | some a =>
    cases ht' : l.forced? t' with
    | none => simp [ht, ht'] at h
    | some a' =>
      obtain ⟨mods, f, image⟩ := a
      obtain ⟨mods', f', image'⟩ := a'
      simp only [ht, ht', Option.any_some, decide_eq_true_eq] at h
      obtain ⟨rfl, h⟩ := h
      exact ⟨mods, mods', f, image, image', rebuilds_of_forced? ht, rebuilds_of_forced? ht', h⟩

/-- A manifest is not told by the fingerprint when the mod names another build file. -/
theorem confuses_manifests : manifestsOnly.Confuses (oneModTree ownBuildMetadata emptyManifest)
    (oneModTree ownBuildMetadata exportManifest) :=
  Patcher.confuses_of_forced? (by decide +kernel)

/-- The id of a mod is not told by the fingerprint, and stands in the code for its exports. -/
theorem confuses_ids : manifestsOnly.Confuses (oneModTree (metadataText "a" "") exportManifest)
    (oneModTree (metadataText "b" "") exportManifest) :=
  Patcher.confuses_of_forced? (by decide +kernel)

/-- A tree with two mods. One hooks a function; the other has a build file of its own and exports a
function. -/
def hookedTree (name id version : String) : FileTree where
  entries := [
    (["data.win"],
      .file "\x7b\"code\":[\x7b\"name\":\"g\",\"instructions\":[\"Return\"]\x7d]\x7d".toUTF8),
    (["bcpatch"], .directory),
    (["bcpatch", "mods"], .directory),
    (["bcpatch", "mods", "m"], .directory),
    (["bcpatch", "mods", "m", "mod.json"], .file ("\x7b\"name\":\"" ++ name ++ "\",\"id\":\"" ++ id ++
      "\",\"version\":\"" ++ version ++ "\"\x7d").toUTF8),
    (["bcpatch", "mods", "m", "patches.json"], .file ("\x7b\"patches\":[\x7b\"op\":\"hook_code\"," ++
      "\"target\":\"g\",\"script\":\"g.asm\"\x7d]\x7d").toUTF8),
    (["bcpatch", "mods", "m", "scripts"], .directory),
    (["bcpatch", "mods", "m", "scripts", "g.asm"], .file "exit".toUTF8),
    (["bcpatch", "mods", "n"], .directory),
    (["bcpatch", "mods", "n", "mod.json"],
      .file (metadataText "n" ",\"artifact\":\"build\"").toUTF8),
    (["bcpatch", "mods", "n", "patches.json"], .file exportManifest.toUTF8),
    (["bcpatch", "mods", "n", "build"], .file "1".toUTF8)]

def hookedMods (name id version : String) : List Mod :=
  [{ metadata := { name, id, version }, directory := ⟨"./bcpatch/mods/m"⟩ },
    { metadata := { name := "", id := "n", version := "", buildFile := some "build" }
      directory := ⟨"./bcpatch/mods/n"⟩ }]

def Patcher.forcedFor? (l : Patcher Unit) (t : FileTree) (mods : List Mod) :
    Option (Fingerprint × Image) :=
  let x : Run Unit (Fingerprint × Image) := do
    let f ← Run.surveying fun t ↦ l.fingerprint t mods
    let loaded ← mods.mapM l.instantiate
    let image ← l.rebuild loaded
    return (f, image)
  value? x { host := { files := t, state := () } }

theorem Patcher.rebuilds_of_forcedFor? {l : Patcher Unit} {t : FileTree} {order : LoadOrder}
    {f : Fingerprint} {image : Image} (horder : l.loadOrder t [] = .ok order [])
    (h : l.forcedFor? t order.mods = some (f, image)) : l.Rebuilds t order.mods f image := by
  obtain ⟨q, h⟩ := value?_eq_some.mp h
  obtain ⟨f, p₁, hf, h⟩ := bind_eq_ok_iff.mp h
  obtain ⟨loaded, p₂, hloaded, h⟩ := bind_eq_ok_iff.mp h
  obtain ⟨image, p₃, himage, h⟩ := bind_eq_ok_iff.mp h
  cases h
  refine ⟨{ host := { files := t, state := () } }, q, rfl, ?_⟩
  rw [forcedRebuild, bind_ok (Run.surveying_eq_ok_iff.mpr ⟨[], horder, rfl⟩), bind_ok hf,
    bind_ok hloaded, bind_ok himage]
  rfl

/-- Here a name ends elsewhere, and a mod that exports nothing has another id. -/
theorem image_eq_of_fingerprint_hooked : ∃ f image,
    manifestsOnly.Rebuilds (hookedTree "M" "a" "10") (hookedMods "M" "a" "10") f image ∧
      manifestsOnly.Rebuilds (hookedTree "M1" "b" "0") (hookedMods "M1" "b" "0") f image := by
  have hlist : (hookedTree "M" "a" "10").list manifestsOnly.config.modsPath = .ok ["m", "n"] :=
    congrArg Except.ok (List.mergeSort_of_pairwise (by decide +kernel))
  have hlist' : (hookedTree "M1" "b" "0").list manifestsOnly.config.modsPath = .ok ["m", "n"] :=
    congrArg Except.ok (List.mergeSort_of_pairwise (by decide +kernel))
  have horder : manifestsOnly.loadOrder (hookedTree "M" "a" "10") [] =
      .ok { mods := hookedMods "M" "a" "10" } [] :=
    LoadOrder.load_of_mods (hookedMods "M" "a" "10") (by decide +kernel) hlist (by decide +kernel)
      rfl rfl (by decide +kernel) rfl
  have horder' : manifestsOnly.loadOrder (hookedTree "M1" "b" "0") [] =
      .ok { mods := hookedMods "M1" "b" "0" } [] :=
    LoadOrder.load_of_mods (hookedMods "M1" "b" "0") (by decide +kernel) hlist' (by decide +kernel)
      rfl rfl (by decide +kernel) rfl
  have hsame : (manifestsOnly.forcedFor? (hookedTree "M" "a" "10") (hookedMods "M" "a" "10")).any
      fun (f, _) ↦
        (manifestsOnly.forcedFor? (hookedTree "M1" "b" "0") (hookedMods "M1" "b" "0")).any
          fun (f', _) ↦ f = f' := by
    decide +kernel
  have hhash : NoCollision
      (manifestsOnly.inputs (hookedTree "M" "a" "10") (hookedMods "M" "a" "10")).hashed
      (manifestsOnly.inputs (hookedTree "M1" "b" "0") (hookedMods "M1" "b" "0")).hashed := by
    decide +kernel
  have huntold : List.Forall₂ ModInputs.SameUntold
      (manifestsOnly.inputs (hookedTree "M" "a" "10") (hookedMods "M" "a" "10")).mods
      (manifestsOnly.inputs (hookedTree "M1" "b" "0") (hookedMods "M1" "b" "0")).mods :=
    .cons ⟨by decide +kernel, .inl ⟨rfl, rfl⟩, .inl (by decide +kernel)⟩
      (.cons ⟨rfl, .inr ⟨by decide +kernel, by decide +kernel⟩, .inr rfl⟩ .nil)
  obtain ⟨⟨f, image⟩, ha, hsame⟩ := Option.any_eq_true _ _ |>.mp hsame
  obtain ⟨⟨f', image'⟩, hb, hsame⟩ := Option.any_eq_true _ _ |>.mp hsame
  obtain rfl : f = f' := of_decide_eq_true hsame
  have ha := Patcher.rebuilds_of_forcedFor? horder ha
  have hb := Patcher.rebuilds_of_forcedFor? horder' hb
  have himage : image = image' := Patcher.image_eq_of_fingerprint rfl ha hb hhash huntold
  exact ⟨f, image, ha, himage ▸ hb⟩

end Example

end HookPatch
