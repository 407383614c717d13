import HookPatch.Assembly.Printer
import HookPatch.Engine.Hooks

namespace HookPatch

structure Export where
  name : String
  argc : UInt16
  symbol : String
  deriving DecidableEq, Repr

namespace Export

def extensionName : String := "bcpatch_interop"

/-- The native function that selects what the next native call does. -/
def selector : String := "interop_set_function"

def dispatchSymbol : String := "interop_function"

def extensionVersion : String := "1.0.0"

def nativeKind : UInt32 := 11

def addSelector (library : String) : Edit Unit := fun w ↦
  if w.image.hasName selector then .error (.nameTaken selector) w
  else
    let (id, ids) := w.session.ids.next w.image
    let function : NativeFunction :=
      { name := selector, symbol := selector, kind := nativeKind, id, argc := 3 }
    let extension : Extension :=
      { name := extensionName, version := extensionVersion,
        libraries := [{ file := library, functions := [function] }] }
    .ok () {
      image := w.image.addExtension extension
      session := { w.session with ids } }

def nativeName (x : Export) : String := x.name ++ "_interop"

def wrapperBody (x : Export) (modId : String) : List Instruction :=
  [.pushString modId, .pushString x.symbol, .pushInt (Int64.ofNat x.argc.toNat), .call selector 3,
      .pop] ++
    (List.range x.argc.toNat).map (fun i ↦ .pushArgument (UInt16.ofNat i)) ++
    [.call x.nativeName x.argc, .ret]

def wrapperText (x : Export) (modId : String) : String :=
  "\n".intercalate ((x.wrapperBody modId).map Assembly.line)

/-- Adds a function to the first library of the first extension for exports. -/
def addNative (image : Image) (f : NativeFunction) : Option Image :=
  match image.extensions.find? (·.name = extensionName) with
  | some { libraries := _ :: _, .. } =>
    let extend : List Library → List Library
      | [] => []
      | l :: rest => { l with functions := l.functions ++ [f] } :: rest
    some { image with
      extensions := modifyFirst (·.name = extensionName)
        (fun e ↦ { e with libraries := extend e.libraries }) image.extensions }
  | _ => none

def register (x : Export) (strictness : Assembly.Strictness) (modId : String) : Edit Unit := fun w ↦
  let native := x.nativeName
  if w.image.hasName native then .error (.nameTaken native) w
  else if (w.image.nativeFunction? selector).isNone then .error (.unknownName selector) w
  else
    let (id, ids) := w.session.ids.next w.image
    let w := { w with session := { w.session with ids } }
    match addNative w.image
        { name := native, symbol := dispatchSymbol, kind := nativeKind, id, argc := x.argc } with
    | none => .error (.unknownName extensionName) w
    | some image =>
      Engine.defineFunction strictness x.name (x.wrapperText modId) x.argc { w with image }

end Export

end HookPatch
