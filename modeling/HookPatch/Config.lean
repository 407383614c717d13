import HookPatch.DocumentError
import HookPatch.Engine.Hooks
import HookPatch.ImageFile

namespace HookPatch

structure Config where
  baseDirectory : Path := ⟨"."⟩
  mods : Path := ⟨"bcpatch/mods"⟩
  baseImage : Path := ⟨"data.win"⟩
  patchedImage : Path := ⟨"cache.win"⟩
  fingerprint : Path := ⟨"bcpatch/cache.fingerprint"⟩
  report : Path := ⟨"bcpatch/error.txt"⟩
  interopLibrary : Path := ⟨"bcpatch/interop/bcpatch-interop.dll"⟩
  isCompressed : Bool := false
  level : Int32 := 3
  /-- Whether to wait for the user before a failed run falls back to the base image. -/
  confirmFailure : Bool := true
  placeholder : String := defaultPlaceholder
  deriving DecidableEq, Repr

namespace Config

def fileName : String := "bcpatch.json"

def modsPath (c : Config) : Path := c.baseDirectory.join c.mods

def baseImagePath (c : Config) : Path := c.baseDirectory.join c.baseImage

def patchedImagePath (c : Config) : Path := c.baseDirectory.join c.patchedImage

def fingerprintPath (c : Config) : Path := c.baseDirectory.join c.fingerprint

def reportPath (c : Config) : Path := c.baseDirectory.join c.report

def interopLibraryPath (c : Config) : Path := c.baseDirectory.join c.interopLibrary

def imageFormat (c : Config) : ImageFormat :=
  if c.isCompressed then .compressedAt c.level.toInt else .plain

def fieldNames : List String :=
  ["mods_dir", "base_image", "artifact", "fingerprint_file", "diagnostic_file", "interop_library",
    "compress_image", "compression_level", "confirm_on_failure", "placeholder"]

open Json in
def toJson (c : Config) : Json :=
  record [("mods_dir", text c.mods.text), ("base_image", text c.baseImage.text),
    ("artifact", text c.patchedImage.text), ("fingerprint_file", text c.fingerprint.text),
    ("diagnostic_file", text c.report.text), ("interop_library", text c.interopLibrary.text),
    ("compress_image", .bool c.isCompressed),
    ("compression_level", .integer c.level.toInt),
    ("confirm_on_failure", .bool c.confirmFailure), ("placeholder", text c.placeholder)]

def path? (j : Json) : Option Path := j.text?.map Path.mk

open Json in
/-- The configuration with the given fields, and those of `d` for the rest. -/
def ofJson? (d : Config) (j : Json) : Option Config := do
  let [mods, baseImage, patchedImage, fingerprint, report, interopLibrary, isCompressed,
      level, confirmFailure, placeholder] ← j.fields? fieldNames
    | none
  return {
    baseDirectory := d.baseDirectory
    mods := ← orDefault d.mods path? mods
    baseImage := ← orDefault d.baseImage path? baseImage
    patchedImage := ← orDefault d.patchedImage path? patchedImage
    fingerprint := ← orDefault d.fingerprint path? fingerprint
    report := ← orDefault d.report path? report
    interopLibrary := ← orDefault d.interopLibrary path? interopLibrary
    isCompressed := ← orDefault d.isCompressed bool? isCompressed
    level := ← orDefault d.level int32? level
    confirmFailure := ← orDefault d.confirmFailure bool? confirmFailure
    placeholder := ← orDefault d.placeholder text? placeholder }

def loadAt (t : FileTree) (baseDirectory path : Path) : Except DocumentError Config :=
  let usual : Config := { baseDirectory }
  if t.existsAt path then
    loadDocument .config .json (fun s ↦ (Json.ofText? s).bind (ofJson? usual)) t path
  else .ok usual

def load (t : FileTree) (baseDirectory : Path) : Except DocumentError Config :=
  loadAt t baseDirectory (baseDirectory.child fileName)

end Config

end HookPatch
