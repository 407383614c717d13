import HookPatch.Proofs.Run.SameFingerprint

namespace HookPatch

@[ext]
structure ModValues where
  name : String
  version : String
  buildVersion : Option String
  build : Option ByteArray
  scripts : List (String × ByteArray)
  zero_not_mem : ∀ s ∈ scripts, '\x00' ∉ s.1.toList

/-- Where the parts of what a mod adds end. -/
structure ModLayout where
  name : Nat
  version : Nat
  buildVersion : Option Nat
  hasBuild : Bool
  hasScripts : Bool
  deriving DecidableEq

namespace ModValues

variable (v : ModValues)

def inputs : ModInputs where
  id := ""
  label := ""
  build := v.build.getD .empty
  manifest := .empty
  scripts := v.scripts

def parts : List String :=
  [v.name, v.version, v.buildVersion.getD "", (v.build.map Sha256.hex).getD "", v.inputs.scriptHash]

def text : String := String.join v.parts

def hashed : List ByteArray := v.build.toList ++ v.inputs.hashed.tail

def layout : ModLayout where
  name := v.name.length
  version := v.version.length
  buildVersion := v.buildVersion.map String.length
  hasBuild := v.build.isSome
  hasScripts := !v.scripts.isEmpty

end ModValues

variable {σ σ' : Type}

def Mod.values (t : FileTree) (catalog : Catalog σ) (m : Mod) : ModValues where
  name := m.metadata.name
  version := m.metadata.version
  buildVersion := catalog.buildVersion? m.id
  build := if !m.namesBuildFile && !t.existsAt m.buildPath then none else some (t.content m.buildPath)
  scripts := (m.inputs t).scripts
  zero_not_mem _ := Mod.zero_not_mem_script

@[ext]
structure RunValues where
  exeName : String
  base : ByteArray
  version : String
  mods : List ModValues

structure RunLayout where
  exeName : Nat
  version : Nat
  mods : List ModLayout
  deriving DecidableEq

namespace RunValues

variable (v : RunValues)

def parts : List String := [v.exeName, Sha256.hex v.base, v.version] ++ v.mods.map ModValues.text

def text : String := String.join v.parts

def hashed : List ByteArray := v.base :: v.mods.flatMap ModValues.hashed

def layout : RunLayout where
  exeName := v.exeName.length
  version := v.version.length
  mods := v.mods.map ModValues.layout

end RunValues

def Fingerprint.values (t : FileTree) (catalog : Catalog σ) (exeName : String) (baseImage : Path)
    (version : String) (mods : List Mod) : RunValues where
  exeName := exeName
  base := t.content baseImage
  version := version
  mods := mods.map (Mod.values t catalog)

section Computed

variable {t : FileTree} {catalog : Catalog σ} {m : Mod}

theorem Mod.buildHash_eq_values {hash : String} (h : m.buildHash t = .ok hash) :
    hash = ((m.values t catalog).build.map Sha256.hex).getD "" := by
  rw [buildHash] at h
  rw [values]
  split at h
  · rename_i hnone
    cases h
    rw [if_pos hnone]
    rfl
  · rename_i hsome
    rw [if_neg hsome, contentHash_eq_ok h]
    rfl

theorem Fingerprint.part_eq_values {s : String} {ws ws' : List Warning}
    (h : part t catalog m ws = .ok s ws') : s = (m.values t catalog).text := by
  rw [part] at h
  obtain ⟨build, ws₁, hbuild, h⟩ := bind_eq_ok_iff.mp h
  obtain rfl : build = ((m.values t catalog).build.map Sha256.hex).getD "" :=
    Mod.buildHash_eq_values (ofExcept_eq_ok_iff.mp hbuild).1
  have hrest {ws : List Warning} (h : (do
      let scripts ← MonadExcept.ofExcept (m.scriptHash t)
      return m.metadata.name ++ m.metadata.version ++ (catalog.buildVersion? m.id).getD "" ++
        ((m.values t catalog).build.map Sha256.hex).getD "" ++ scripts : Survey String) ws =
        .ok s ws') : s = (m.values t catalog).text := by
    obtain ⟨scripts, ws₂, hscripts, h⟩ := bind_eq_ok_iff.mp h
    obtain rfl := Mod.scriptHash_eq_ok (ofExcept_eq_ok_iff.mp hscripts).1
    cases h
    simp only [ModValues.text, ModValues.parts, String.join_cons, String.join_nil, String.append_empty,
      String.append_assoc]
    rfl
  split at h
  · obtain ⟨_, _, -, h⟩ := bind_eq_ok_iff.mp h
    exact hrest h
  · exact hrest h

theorem Fingerprint.text_eq_values {exeName version : String} {baseImage : Path} {mods : List Mod}
    {f : Fingerprint} {ws ws' : List Warning}
    (h : compute t catalog exeName baseImage version mods ws = .ok f ws') :
    f.text = (values t catalog exeName baseImage version mods).text := by
  rw [compute] at h
  obtain ⟨base, ws₁, hbase, h⟩ := bind_eq_ok_iff.mp h
  obtain rfl := contentHash_eq_ok (ofExcept_eq_ok_iff.mp hbase).1
  obtain ⟨parts, ws₂, hparts, h⟩ := bind_eq_ok_iff.mp h
  have hpart (m : Mod) (_ : m ∈ mods) (ws : List Warning) (s : String) (ws' : List Warning)
      (_ : True) (hs : part t catalog m ws = .ok s ws') :
      True ∧ True ∧ s = (m.values t catalog).text :=
    ⟨trivial, trivial, part_eq_values hs⟩
  obtain ⟨-, -, rfl⟩ := mapM_eq_map trivial hpart hparts
  cases h
  simp only [RunValues.text, RunValues.parts, values, List.cons_append, List.nil_append,
    String.join_cons, List.map_map, String.append_assoc]
  rfl

end Computed

section Decoding

/-- Texts of known lengths can be told from what they give together. -/
theorem join_inj {ps ps' : List String} (hlengths : ps.map String.length = ps'.map String.length)
    (h : String.join ps = String.join ps') : ps = ps' := by
  induction ps generalizing ps' with
  | nil =>
    rw [List.map_nil, eq_comm, List.map_eq_nil_iff] at hlengths
    exact hlengths.symm
  | cons p ps ih =>
    cases ps' with
    | nil => cases hlengths
    | cons p' ps' =>
      rw [List.map_cons, List.map_cons, List.cons.injEq] at hlengths
      rw [String.join_cons, String.join_cons, ← String.toList_inj, String.toList_append,
        String.toList_append] at h
      have hlength : p.toList.length = p'.toList.length := by
        rw [String.length_toList, String.length_toList, hlengths.1]
      obtain ⟨hp, hps⟩ := List.append_inj h hlength
      rw [String.toList_inj.mp hp, ih hlengths.2 (String.toList_inj.mp hps)]

theorem eq_of_getD {α : Type} {a b : Option α} {d : α} (hsome : a.isSome = b.isSome)
    (h : a.getD d = b.getD d) : a = b := by
  cases a with
  | none => cases b with
    | none => rfl
    | some y => cases hsome
  | some x => cases b with
    | none => cases hsome
    | some y => exact congrArg some h

namespace ModValues

variable {v v' : ModValues}

theorem scripts_iff_of_layout (h : v.layout = v'.layout) :
    v.inputs.scripts = [] ↔ v'.inputs.scripts = [] := by
  have hscripts : (!v.scripts.isEmpty) = !v'.scripts.isEmpty := congrArg ModLayout.hasScripts h
  rw [Bool.not_inj_iff] at hscripts
  rw [← List.isEmpty_iff, ← List.isEmpty_iff, inputs, inputs, hscripts]

theorem length_hash (content : Option ByteArray) :
    ((content.map Sha256.hex).getD "").length = if content.isSome then 64 else 0 := by
  cases content with
  | none => rfl
  | some content => exact String.length_toList.symm.trans (Sha256.length_hex content)

theorem map_length_parts (h : v.layout = v'.layout) :
    v.parts.map String.length = v'.parts.map String.length := by
  have hversion (o : Option String) : (o.getD "").length = (o.map String.length).getD 0 := by
    cases o <;> rfl
  have hscripts := ModInputs.length_scriptHash (scripts_iff_of_layout h)
  rw [String.length_toList, String.length_toList] at hscripts
  simp only [layout, ModLayout.mk.injEq] at h
  obtain ⟨hname, hnumber, hbuildVersion, hbuild, -⟩ := h
  simp only [parts, List.map_cons, List.map_nil]
  rw [length_hash, length_hash, hversion, hversion, hname, hnumber, hbuildVersion, hbuild, hscripts]

theorem length_text (h : v.layout = v'.layout) : v.text.length = v'.text.length := by
  rw [text, text, String.length_join, String.length_join, map_length_parts h]

theorem eq_of_text (hhash : NoCollision v.hashed v'.hashed) (hlayout : v.layout = v'.layout)
    (h : v.text = v'.text) : v = v' := by
  have hparts := join_inj (map_length_parts hlayout) h
  simp only [parts, List.cons.injEq, and_true] at hparts
  obtain ⟨hname, hversion, hbuildVersion, hbuild, hscripts⟩ := hparts
  simp only [layout, ModLayout.mk.injEq] at hlayout
  obtain ⟨-, -, hversions, hbuilds, -⟩ := hlayout
  have hbuildVersion : v.buildVersion = v'.buildVersion := by
    refine eq_of_getD ?_ hbuildVersion
    simpa using congrArg Option.isSome hversions
  have hhex : v.build.map Sha256.hex = v'.build.map Sha256.hex :=
    eq_of_getD (by simpa using hbuilds) hbuild
  have hbuild : v.build = v'.build := by
    cases hv : v.build with
    | none =>
      rw [hv, Option.map_none, eq_comm, Option.map_eq_none_iff] at hhex
      exact hhex.symm
    | some content =>
      rw [hv, Option.map_some] at hhex
      obtain ⟨content', hv', heq⟩ := Option.map_eq_some_iff.mp hhex.symm
      rw [hv', hhash content (by simp [hashed, hv]) content' (by simp [hashed, hv']) heq.symm]
  have hscripts : v.scripts = v'.scripts := by
    refine ModInputs.scripts_eq (hhash.mono ?_ ?_) v.zero_not_mem v'.zero_not_mem hscripts
    · exact List.subset_append_right _ _
    · exact List.subset_append_right _ _
  exact ModValues.ext hname hversion hbuildVersion hbuild hscripts

end ModValues

theorem RunValues.eq_of_text {v v' : RunValues} (hhash : NoCollision v.hashed v'.hashed)
    (hlayout : v.layout = v'.layout) (h : v.text = v'.text) : v = v' := by
  simp only [layout, RunLayout.mk.injEq] at hlayout
  obtain ⟨hexeName, hversion, hmods⟩ := hlayout
  have hmods : List.Forall₂ (fun w w' ↦ w.layout = w'.layout) v.mods v'.mods := by
    rwa [← List.forall₂_eq_eq_eq, List.forall₂_map_left_iff, List.forall₂_map_right_iff] at hmods
  have hlengths : v.parts.map String.length = v'.parts.map String.length := by
    have hhex (content : ByteArray) : (Sha256.hex content).length = 64 :=
      String.length_toList.symm.trans (Sha256.length_hex content)
    have htexts : (v.mods.map ModValues.text).map String.length =
        (v'.mods.map ModValues.text).map String.length := by
      rw [← List.forall₂_eq_eq_eq, List.map_map, List.map_map, List.forall₂_map_left_iff,
        List.forall₂_map_right_iff]
      exact hmods.imp fun _ _ ↦ ModValues.length_text
    simp only [parts, List.cons_append, List.nil_append, List.map_cons]
    rw [hexeName, hversion, htexts, hhex, hhex]
  have hparts := join_inj hlengths h
  simp only [parts, List.cons_append, List.nil_append, List.cons.injEq] at hparts
  obtain ⟨hexeName, hbase, hversion, htexts⟩ := hparts
  have htexts : List.Forall₂ (fun w w' ↦ w.text = w'.text) v.mods v'.mods := by
    rwa [← List.forall₂_eq_eq_eq, List.forall₂_map_left_iff, List.forall₂_map_right_iff] at htexts
  have hbase : v.base = v'.base := hhash _ List.mem_cons_self _ List.mem_cons_self hbase
  have hmods : v.mods = v'.mods := by
    rw [← List.forall₂_eq_eq_eq]
    have hboth := List.Forall₂.mp (fun _ _ hlayout htext ↦ And.intro hlayout htext) hmods htexts
    refine forall₂_imp_of_mem hboth fun w hw w' hw' ⟨hlayout, htext⟩ ↦ ?_
    refine ModValues.eq_of_text (hhash.mono ?_ ?_) hlayout htext
    · exact fun c hc ↦ List.mem_cons_of_mem _ (List.mem_flatMap.mpr ⟨w, hw, hc⟩)
    · exact fun c hc ↦ List.mem_cons_of_mem _ (List.mem_flatMap.mpr ⟨w', hw', hc⟩)
  exact RunValues.ext hexeName hbase hversion hmods

end Decoding

/-- Two fingerprints that can be computed, none of whose contents collide, are of the same values just
when they are the same and the parts of their texts end at the same places. -/
theorem Fingerprint.values_eq_iff {t t' : FileTree} {catalog : Catalog σ} {catalog' : Catalog σ'}
    {exeName exeName' version version' : String} {baseImage baseImage' : Path}
    {mods mods' : List Mod} {f f' : Fingerprint} {ws₁ ws₂ ws₁' ws₂' : List Warning}
    (h : compute t catalog exeName baseImage version mods ws₁ = .ok f ws₂)
    (h' : compute t' catalog' exeName' baseImage' version' mods' ws₁' = .ok f' ws₂') :
    let v := values t catalog exeName baseImage version mods
    let v' := values t' catalog' exeName' baseImage' version' mods'
    NoCollision v.hashed v'.hashed → (v = v' ↔ f = f' ∧ v.layout = v'.layout) := by
  intro v v' hhash
  have htext : f.text = v.text := text_eq_values h
  have htext' : f'.text = v'.text := text_eq_values h'
  constructor
  · intro hv
    refine ⟨?_, congrArg RunValues.layout hv⟩
    cases f
    cases f'
    rw [Fingerprint.mk.injEq]
    exact htext.trans ((congrArg RunValues.text hv).trans htext'.symm)
  · rintro ⟨rfl, hlayout⟩
    exact RunValues.eq_of_text hhash hlayout (htext.symm.trans htext')

section Example

def namedMod (name version : String) : Mod where
  metadata := { name, id := "m", version }
  directory := ⟨"m"⟩

def manifestTree (manifest : String) : FileTree where
  entries := [(["data.win"], .file .empty), (["m"], .directory),
    (["m", "patches.json"], .file manifest.toUTF8)]

def namedFingerprint (t : FileTree) (m : Mod) : Survey Fingerprint :=
  Fingerprint.compute t ({} : Catalog Unit) "" ⟨"data.win"⟩ programVersion [m]

def namedValues (t : FileTree) (m : Mod) : RunValues :=
  Fingerprint.values t ({} : Catalog Unit) "" ⟨"data.win"⟩ programVersion [m]

theorem values_eq_iff_manifest : ∃ f f' ws ws',
    namedFingerprint (manifestTree "\x7b\x7d") (namedMod "A" "1") [] = .ok f ws ∧
      namedFingerprint (manifestTree " \x7b\x7d") (namedMod "A" "1") [] = .ok f' ws' ∧ f ≠ f' := by
  let m := namedMod "A" "1"
  let t := manifestTree "\x7b\x7d"
  let t' := manifestTree " \x7b\x7d"
  have hsucceeds : succeeds (namedFingerprint t m) [] ∧ succeeds (namedFingerprint t' m) [] := by
    decide +kernel
  obtain ⟨f, ws, h⟩ := succeeds_iff.mp hsucceeds.1
  obtain ⟨f', ws', h'⟩ := succeeds_iff.mp hsucceeds.2
  refine ⟨f, f', ws, ws', h, h', fun hf ↦ ?_⟩
  have hhash : NoCollision (namedValues t m).hashed (namedValues t' m).hashed := by decide +kernel
  have hlayout : (namedValues t m).layout = (namedValues t' m).layout := by decide +kernel
  have hvalues : namedValues t m = namedValues t' m :=
    (Fingerprint.values_eq_iff h h' hhash).mpr ⟨hf, hlayout⟩
  have hsizes := congrArg (fun v ↦ v.mods.map fun w ↦ w.build.map ByteArray.size) hvalues
  revert hsizes
  decide +kernel

/-- A name and a version run together. -/
theorem values_ne_of_fingerprint : ∃ f ws ws',
    namedFingerprint (manifestTree "") (namedMod "A" "1.0") [] = .ok f ws ∧
      namedFingerprint (manifestTree "") (namedMod "A1" ".0") [] = .ok f ws' ∧
      NoCollision (namedValues (manifestTree "") (namedMod "A" "1.0")).hashed
        (namedValues (manifestTree "") (namedMod "A1" ".0")).hashed ∧
      namedValues (manifestTree "") (namedMod "A" "1.0") ≠
        namedValues (manifestTree "") (namedMod "A1" ".0") := by
  let t := manifestTree ""
  have hsame : (value? (namedFingerprint t (namedMod "A" "1.0")) []).any fun f ↦
      value? (namedFingerprint t (namedMod "A1" ".0")) [] = some f := by
    decide +kernel
  have hhash : NoCollision (namedValues t (namedMod "A" "1.0")).hashed
      (namedValues t (namedMod "A1" ".0")).hashed := by
    decide +kernel
  have hvalues : namedValues t (namedMod "A" "1.0") ≠ namedValues t (namedMod "A1" ".0") := by
    intro h
    have hnames := congrArg (fun v ↦ v.mods.map ModValues.name) h
    revert hnames
    decide
  cases hfirst : value? (namedFingerprint t (namedMod "A" "1.0")) [] with
  | none => simp [hfirst] at hsame
  | some f =>
    simp only [hfirst, Option.any_some, decide_eq_true_eq] at hsame
    obtain ⟨ws, h⟩ := value?_eq_some.mp hfirst
    obtain ⟨ws', h'⟩ := value?_eq_some.mp hsame
    exact ⟨f, ws, ws', h, h', hhash, hvalues⟩

end Example

end HookPatch
