import HookPatch.Mod.Logic

namespace HookPatch

inductive PatchStep
  | softHook (target script : String)
  | arityHook (target script : String)
  | hardHook (target script : String) (argc : UInt16)
  | defineFunction (target script : String) (argc : UInt16)
  deriving DecidableEq, Repr

structure Manifest where
  patches : List PatchStep := []
  interop : List Export := []
  deriving DecidableEq, Repr

namespace Json

mutual

/-- Whether a value can be kept before it is known what it is for: its strings are text, its numbers
are finite, and it has at most `depth` levels. -/
def isTame (depth : Nat) : Json → Bool
  | null => true
  | bool _ => true
  | integer n => !Decimal.overflowsScaled ⟨n < 0, n.natAbs, 0⟩
  | decimal d => !d.overflowsScaled
  | string s => s.isSome
  | array items => 0 < depth && areTame (depth - 1) items
  | object members => 0 < depth && haveTame (depth - 1) members

def areTame (depth : Nat) : List Json → Bool
  | [] => true
  | j :: rest => isTame depth j && areTame depth rest

def haveTame (depth : Nat) : List (Option String × Json) → Bool
  | [] => true
  | (key, j) :: rest => key.isSome && isTame depth j && haveTame depth rest

end

end Json

namespace PatchStep

open Json

def script : PatchStep → String
  | softHook _ script => script
  | arityHook _ script => script
  | hardHook _ script _ => script
  | defineFunction _ script _ => script

def toJson : PatchStep → Json
  | softHook target script =>
    record [("op", text "hook_code"), ("target", text target), ("script", text script)]
  | arityHook target script =>
    record [("op", text "hook_function"), ("target", text target), ("script", text script)]
  | hardHook target script argc =>
    record [("op", text "hard_hook"), ("target", text target), ("script", text script),
      ("argc", .integer argc.toNat)]
  | defineFunction target script argc =>
    record [("op", text "create_function"), ("target", text target), ("script", text script),
      ("argc", .integer argc.toNat)]

def ofFields? (op : String) (fields : Json) : Option PatchStep :=
  if op = "hook_code" then do
    let [target, script] ← fields.fields? ["target", "script"] | none
    return softHook (← required text? target) (← required text? script)
  else if op = "hook_function" then do
    let [target, script] ← fields.fields? ["target", "script"] | none
    return arityHook (← required text? target) (← required text? script)
  else if op = "hard_hook" then do
    let [target, script, argc] ← fields.fields? ["target", "script", "argc"] | none
    return hardHook (← required text? target) (← required text? script) (← required uint16? argc)
  else if op = "create_function" then do
    let [target, script, argc] ← fields.fields? ["target", "script", "argc"] | none
    return defineFunction (← required text? target) (← required text? script)
      (← orDefault 0 uint16? argc)
  else none

def maxDepth : Nat := 124

def ofJson? : Json → Option PatchStep
  | .object members => do
    let op ← required text? (← member? members "op")
    let rest := members.filter (·.1 ≠ some "op")
    guard (haveTame maxDepth rest)
    ofFields? op (.object rest)
  | .array (op :: rest) => do
    guard (areTame maxDepth rest)
    ofFields? (← op.text?) (.array rest)
  | _ => none

end PatchStep

namespace Export

open Json

def toJson (x : Export) : Json :=
  record [("name", text x.name), ("argc", .integer x.argc.toNat), ("symbol", text x.symbol)]

def ofJson? (j : Json) : Option Export := do
  let [name, argc, symbol] ← j.fields? ["name", "argc", "symbol"] | none
  return {
    name := ← required text? name
    argc := ← required uint16? argc
    symbol := ← required text? symbol }

end Export

def PatchStep.apply {σ : Type} (c : PatchContext) (op : PatchStep) : Patch σ Failure Unit :=
  match c.environment.script? op.script with
  | none => throw { message := "script " ++ op.script ++ " is not loaded" }
  | some source =>
    EStateM.adaptExcept EditError.failure <|
      match op with
      | softHook target _ => discard (c.softHook target source)
      | arityHook target _ => discard (c.arityHook target source)
      | hardHook target _ argc => discard (c.hardHook target source argc)
      | defineFunction target _ argc => c.defineFunction target source argc

namespace Manifest

open Json

def toJson (m : Manifest) : Json :=
  record [("patches", .array (m.patches.map PatchStep.toJson)),
    ("interop", .array (m.interop.map Export.toJson))]

def ofJson? (j : Json) : Option Manifest := do
  let [patches, interop] ← j.fields? ["patches", "interop"] | none
  return {
    patches := ← orDefault [] (list? PatchStep.ofJson?) patches
    interop := ← orDefault [] (list? Export.ofJson?) interop }

def load (t : FileTree) (path : Path) : Except DocumentError Manifest :=
  loadDocument .manifest .json (fun s ↦ (Json.ofText? s).bind ofJson?) t path

def logic {σ : Type} (m : Manifest) : ModLogic σ where
  patch c := m.patches.forM (PatchStep.apply c)
  exports _ := m.interop

end Manifest

end HookPatch
