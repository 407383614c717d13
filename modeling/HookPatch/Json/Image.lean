import HookPatch.Image
import HookPatch.Json.Value

namespace HookPatch

open Json

def Instruction.toJson : Instruction → Json
  | pushInt value => record [("PushInt", .integer value.toInt)]
  | pushString value => record [("PushString", text value)]
  | pushFunction name => record [("PushFunction", text name)]
  | pushArgument index => record [("PushArgument", .integer index.toNat)]
  | pop => text "Pop"
  | add => text "Add"
  | call target argc =>
    record [("Call", record [("target", text target), ("argc", .integer argc.toNat)])]
  | ret => text "Return"
  | exit => text "Exit"
  | nop => text "Nop"

def Instruction.ofName? (name : String) : Option Instruction :=
  if name = "Pop" then some .pop else if name = "Add" then some .add
  else if name = "Return" then some .ret else if name = "Exit" then some .exit
  else if name = "Nop" then some .nop else none

def Instruction.ofOperand? (name : String) (operand : Json) : Option Instruction :=
  if name = "PushInt" then operand.int64?.map .pushInt
  else if name = "PushString" then operand.text?.map .pushString
  else if name = "PushFunction" then operand.text?.map .pushFunction
  else if name = "PushArgument" then operand.uint16?.map .pushArgument
  else if name = "Call" then do
    let [target, argc] ← operand.fields? ["target", "argc"] | none
    return .call (← required text? target) (← required uint16? argc)
  else
    match operand with
    | .null => Instruction.ofName? name
    | _ => none

def Instruction.ofJson? : Json → Option Instruction
  | .string (some name) => Instruction.ofName? name
  | .object [(some name, operand)] => Instruction.ofOperand? name operand
  | _ => none

def Local.toJson (v : Local) : Json :=
  record [("name", text v.name), ("index", .integer v.index.toNat)]

def Local.ofJson? (j : Json) : Option Local := do
  let [name, index] ← j.fields? ["name", "index"] | none
  return { name := ← required text? name, index := ← required uint32? index }

def optionalField (name : String) (value : Option String) : List (String × Json) :=
  match value with
  | some s => [(name, text s)]
  | none => []

def CodeUnit.toJson (u : CodeUnit) : Json :=
  record <|
    [("name", text u.name), ("instructions", .array (u.body.map Instruction.toJson)),
      ("arguments_count", .integer u.arity.toNat),
      ("locals_count", .integer u.localCount.toNat),
      ("locals", .array (u.locals.map Local.toJson))] ++
    optionalField "parent" u.parent ++
    if u.children.isEmpty then [] else [("children", .array (u.children.map text))]

def CodeUnit.ofJson? (j : Json) : Option CodeUnit := do
  let [name, body, arity, localCount, locals, parent, children] ← j.fields?
      ["name", "instructions", "arguments_count", "locals_count", "locals", "parent", "children"]
    | none
  return {
    name := ← required text? name
    body := ← orDefault [] (list? Instruction.ofJson?) body
    arity := ← orDefault 0 uint16? arity
    localCount := ← orDefault 0 uint16? localCount
    locals := ← orDefault [] (list? Local.ofJson?) locals
    parent := ← orDefault none (nullable? text?) parent
    children := ← orDefault [] (list? text?) children }

def Declaration.toJson (f : Declaration) : Json :=
  record (("name", text f.name) :: optionalField "code" f.code)

def Declaration.ofJson? (j : Json) : Option Declaration := do
  let [name, code] ← j.fields? ["name", "code"] | none
  return { name := ← required text? name, code := ← orDefault none (nullable? text?) code }

def NativeFunction.toJson (f : NativeFunction) : Json :=
  record [("name", text f.name), ("ext_name", text f.symbol), ("kind", .integer f.kind.toNat),
    ("id", .integer f.id.toNat), ("argc", .integer f.argc.toNat)]

def NativeFunction.ofJson? (j : Json) : Option NativeFunction := do
  let [name, symbol, kind, id, argc] ← j.fields? ["name", "ext_name", "kind", "id", "argc"] | none
  return {
    name := ← required text? name
    symbol := ← required text? symbol
    kind := ← required uint32? kind
    id := ← required uint32? id
    argc := ← orDefault 0 uint16? argc }

def Library.toJson (f : Library) : Json :=
  record [("filename", text f.file),
    ("functions", .array (f.functions.map NativeFunction.toJson))]

def Library.ofJson? (j : Json) : Option Library := do
  let [file, functions] ← j.fields? ["filename", "functions"] | none
  return {
    file := ← required text? file
    functions := ← orDefault [] (list? NativeFunction.ofJson?) functions }

def Extension.toJson (e : Extension) : Json :=
  record [("name", text e.name), ("version", text e.version),
    ("files", .array (e.libraries.map Library.toJson))]

def Extension.ofJson? (j : Json) : Option Extension := do
  let [name, version, libraries] ← j.fields? ["name", "version", "files"] | none
  return {
    name := ← required text? name
    version := ← orDefault "" text? version
    libraries := ← orDefault [] (list? Library.ofJson?) libraries }

def Image.toJson (image : Image) : Json :=
  record [("code", .array (image.units.map CodeUnit.toJson)),
    ("functions", .array (image.functions.map Declaration.toJson)),
    ("extensions", .array (image.extensions.map Extension.toJson))]

def Image.ofJson? (j : Json) : Option Image := do
  let [units, functions, extensions] ← j.fields? ["code", "functions", "extensions"] | none
  return {
    units := ← required (list? CodeUnit.ofJson?) units
    functions := ← orDefault [] (list? Declaration.ofJson?) functions
    extensions := ← orDefault [] (list? Extension.ofJson?) extensions }

end HookPatch
