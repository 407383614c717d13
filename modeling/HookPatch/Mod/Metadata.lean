import HookPatch.DocumentError
import HookPatch.Json.Image
import HookPatch.Json.Reader
import HookPatch.Toml.Document

namespace HookPatch

structure Metadata where
  name : String
  id : String
  version : String
  description : String := ""
  dependencies : List String := []
  /-- The file that identifies the build of the mod, seen from its directory. -/
  buildFile : Option String := none
  deriving DecidableEq, Repr

namespace Metadata

open Json in
def toJson (m : Metadata) : Json :=
  record <|
    [("name", text m.name), ("id", text m.id), ("version", text m.version),
      ("description", text m.description), ("dependencies", .array (m.dependencies.map text))] ++
    optionalField "artifact" m.buildFile

open Json in
def ofJson? (j : Json) : Option Metadata := do
  let [name, id, version, description, dependencies, buildFile] ← j.fields?
      ["name", "id", "version", "description", "dependencies", "artifact"]
    | none
  return {
    name := ← required text? name
    id := ← required text? id
    version := ← required text? version
    description := ← orDefault "" text? description
    dependencies := ← orDefault [] (list? text?) dependencies
    buildFile := ← orDefault none (nullable? text?) buildFile }

def entryOr (d : α) (f : Toml → Option α) (entries : List (String × Toml)) (key : String) :
    Option α :=
  match entries.lookup key with
  | none => some d
  | some v => f v

def ofToml? (entries : List (String × Toml)) : Option Metadata :=
  return {
    name := ← (← entries.lookup "name").string?
    id := ← (← entries.lookup "id").string?
    version := ← (← entries.lookup "version").string?
    description := ← entryOr "" Toml.string? entries "description"
    dependencies := ← entryOr [] Toml.strings? entries "dependencies"
    buildFile := ← entryOr none (fun v ↦ v.string?.map some) entries "artifact" }

def load (t : FileTree) (path : Path) : Except DocumentError Metadata :=
  if path.extension? = some "toml" then
    loadDocument .metadata .toml (fun s ↦ (Toml.ofText? s).bind ofToml?) t path
  else loadDocument .metadata .json (fun s ↦ (Json.ofText? s).bind ofJson?) t path

end Metadata

end HookPatch
