import HookPatch.Cursor
import HookPatch.Engine.Redirection
import HookPatch.Text.Substitution

namespace HookPatch

/-- The token of a hook source that stands for the body or function being replaced. -/
def defaultPlaceholder : String := "#orig#"

def substitute (placeholder name source : String) : String :=
  String.ofList (Text.replaceAll placeholder.toList name.toList source.toList)

def Image.setBody (image : Image) (index : Nat) (body : List Instruction) : Image :=
  { image with units := image.units.modify index fun u ↦ { u with body } }

def CodeUnit.preservedAs (u : CodeUnit) (name : String) : CodeUnit :=
  { u with name, parent := none }

def CodeUnit.emptied (u : CodeUnit) : CodeUnit :=
  { u with body := [], locals := [], children := [] }

def Image.adopt (image : Image) (parent : String) (children : List String) : Image :=
  children.foldl (fun image child ↦ image.modifyUnit child fun u ↦ { u with parent := some parent })
    image

/-- Moves the body of the unit `u` at `index` into a new unit right behind it. -/
def Workspace.preserve (w : Workspace) (index : Nat) (u : CodeUnit) : String × Workspace :=
  let (name, names) := w.session.names.next w.image u.name "orig"
  let emptied := { w.image with units := w.image.units.modify index CodeUnit.emptied }
  let image := (emptied.adopt name u.children).insertBehind index (u.preservedAs name)
  (name, {
    image := image.declare name (some name)
    session := { w.session with names, hooks := w.session.hooks.record u.name name } })

def Image.define (image : Image) (name : String) (argc : UInt16) (body : List Instruction) :
    Image :=
  (image.addUnit { name, body, arity := argc }).declare name (some name)

namespace Engine

open Assembly

def assembleFor (strictness : Strictness) (image : Image) (target source : String) :
    Except EditError (List Instruction) :=
  (assemble strictness image target source).mapError (.badSource target)

/-- Gives the unit `code` the body `source`, in which the placeholder stands for the unit that now
holds the replaced body. Gives the name of that unit. -/
def softHook (strictness : Strictness) (code source placeholder : String) : Edit String := fun w ↦
  match w.image.unitIndex? code, w.image.unit? code with
  | some index, some u =>
    let (preserved, w) := w.preserve index u
    match assembleFor strictness w.image code (substitute placeholder preserved source) with
    | .error e => .error e w
    | .ok body => .ok preserved { w with image := w.image.setBody index body }
  | _, _ => .error (.unknownName code) w

/-- Adds a unit with the body `source`, in which the placeholder stands for `function` or its
previous hard hook, and redirects the calls of `function` with `argc` arguments to it. Gives the
name of the unit. -/
def hardHook (strictness : Strictness) (function source : String) (argc : UInt16)
    (placeholder : String) : Edit String := fun w ↦
  if w.image.isCallable function then
    let wrapped := ((w.session.redirects.get? function).map (·.replacement)).getD function
    let (name, names) := w.session.names.next w.image function "hook"
    let named := { w with session := { w.session with names } }
    match assembleFor strictness w.image name (substitute placeholder wrapped source) with
    | .error e => .error e named
    | .ok body =>
      let redirects := w.session.redirects.insert function { replacement := name, argc }
      .ok name {
        image := w.image.define name argc body
        session := { named.session with redirects } }
  else .error (.unknownName function) w

/-- Hard hooks a function for calls with as many arguments as its unit takes. -/
def arityHook (strictness : Strictness) (function source placeholder : String) : Edit String :=
  fun w ↦
    match w.image.arity? function with
    | some argc => hardHook strictness function source argc placeholder w
    | none => .error (.unknownName function) w

/-- Runs a cursor over the body that a unit has from before all hooks, if it is hooked at all. -/
def editInnermost (name : String) (edit : Cursor → α × Cursor) : Edit α := fun w ↦
  let target := (w.session.hooks.innermost? name).getD name
  match w.image.unit? target with
  | some u =>
    let (result, cursor) := edit { code := u.body }
    let image := w.image.modifyUnit target fun u ↦ { u with body := cursor.code }
    .ok result { w with image }
  | none => .error (.unknownName name) w

def defineFunction (strictness : Strictness) (name source : String) (argc : UInt16) : Edit Unit :=
  fun w ↦
    if w.image.hasName name then .error (.nameTaken name) w
    else
      match assembleFor strictness w.image name source with
      | .error e => .error e w
      | .ok body => .ok () { w with image := w.image.define name argc body }

/-- Redirects all call sites by the pending redirections, of which none is left, and counts them. -/
def applyRedirects : Edit Nat := fun w ↦
  let drained := { w with session := { w.session with redirects := .empty } }
  if w.session.redirects.entries.isEmpty then .ok 0 drained
  else
    match redirectImage w.session.redirects w.image with
    | .error e => .error e drained
    | .ok (count, image) => .ok count { drained with image }

def freshId : Edit UInt32 := fun w ↦
  let (id, ids) := w.session.ids.next w.image
  .ok id { w with session := { w.session with ids } }

end Engine

end HookPatch
