import HookPatch.Assembly.Printer
import HookPatch.CommandLine.Invocation
import HookPatch.Run.Fallback
import HookPatch.Run.HostProgram

namespace HookPatch

structure Console where
  files : FileTree
  output : String := ""
  awaitsUser : Bool := false

/-- A part of a command, which keeps what it has done when it fails. -/
abbrev Shell (α : Type) := EStateM Failure Console α

namespace Shell

def print (s : String) : Shell Unit := modify fun c ↦ { c with output := c.output ++ s }

def printLine (s : String) : Shell Unit := print (s ++ "\n")

def printLines (lines : List String) : Shell Unit := lines.forM printLine

def surveying (blame : RunError → Failure) (f : FileTree → Survey α) : Shell α := fun c ↦
  match f c.files [] with
  | .error e _ => .error (blame e) c
  | .ok a _ => .ok a c

def reading (f : FileTree → Except Failure α) : Shell α := fun c ↦
  match f c.files with
  | .error e => .error e c
  | .ok a => .ok a c

end Shell

open Shell

def Config.patcher (config : Config) (zstd : Zstd) (exeName : String) : Patcher Unit :=
  { config, zstd, exeName }

def Console.progress (c : Console) : Progress Unit := { host := { files := c.files, state := () } }

def Bool.word (b : Bool) : String := if b then "true" else "false"

namespace Command

variable (z : Zstd)

def printOrder (config : Config) : Shell Unit := do
  let order ← surveying (fun e ↦ e.failure.within "Failed to compute load order")
    (config.patcher z "").loadOrder
  printLine ("Load order (" ++ toString order.mods.length ++ " mods):")
  printLines <| order.mods.mapIdx fun i m ↦
    "  " ++ toString (i + 1) ++ ". " ++ m.metadata.name ++ " " ++ m.metadata.version ++ " (" ++
      m.id ++ ")"
  if !order.excluded.isEmpty then
    printLine "\nExcluded:"
    printLines (order.excluded.map fun d ↦ "  " ++ d.message)

def printFingerprint (config : Config) (exe : String) : Shell Unit := do
  let patcher := config.patcher z exe
  let order ← surveying RunError.failure patcher.loadOrder
  let f ← surveying (fun e ↦ e.failure.within "Failed to compute fingerprint") fun t ↦
    patcher.fingerprint t order.mods
  printLine f.text
  printLine ("  Cached: " ++ config.fingerprintPath.text)
  let current ← reading fun t ↦
    (f.isStored t config.fingerprintPath).mapError RunError.failure
  printLine ("  Up to date: " ++ Bool.word current)

def patchImage (config : Config) (exe : String) : Shell Unit := do
  let outcome ← fun c ↦
    match (config.patcher z exe).run c.progress with
    | .error e p => .error (e.failure.within "Patching failed") { c with files := p.host.files }
    | .ok outcome p => .ok outcome { c with files := p.host.files }
  printLine ("Artifact: " ++ outcome.image.text)
  printLine ("  Rebuilt: " ++ Bool.word outcome.rebuilt)
  printLine ("  Mods: " ++ ", ".intercalate outcome.mods)

def runProgram (config : Config) (arguments : List String) : Shell Unit := do
  let exe := arguments.headD ""
  let choice ← fun c ↦
    let (choice, p) := (config.patcher z exe).choose c.progress
    .ok choice { c with files := p.host.files, awaitsUser := choice.awaitsUser }
  if choice.awaitsUser then printLine "Press Enter to continue..."
  match Launch.ofCommandLine config.baseDirectory arguments choice.image with
  | .error e => throw (e.failure.within ("Failed to launch " ++ exe))
  | .ok launch => throw (launch.refused.failure.within ("Failed to launch " ++ exe))

def unitLine (u : CodeUnit) : String :=
  let parent :=
    match u.parent with
    | some name => " -> " ++ name
    | none => ""
  "  " ++ u.name ++ " argc=" ++ toString u.arity.toNat ++ " len=" ++
    toString u.body.length ++ parent

def printUnits (image : Image) : Shell Unit := do
  printLine ("Code units: " ++ toString image.units.length)
  printLine ("  Functions: " ++ toString image.functions.length)
  printLine ("  Extension functions: " ++ toString image.nativeFunctions.length)
  printLine ("  Instructions: " ++ toString image.instructionCount)
  printLines (image.units.map unitLine)

def printUnit (u : CodeUnit) : Shell Unit := do
  printLine ("; " ++ u.name ++ " (argc=" ++ toString u.arity.toNat ++ ", locals=" ++
    toString u.localCount.toNat ++ ")")
  print (Assembly.listing u.body)

def printImage (path : Path) (unit : Option String) : Shell Unit := do
  let image ← reading fun t ↦
    (Image.load z t path).mapError fun e ↦
      (RunError.image e).failure.within ("Failed to read image: " ++ path.text)
  match unit with
  | none => printUnits image
  | some name =>
    match image.unit? name with
    | none => throw { message := "No code unit named " ++ name }
    | some u => printUnit u

def execute (config : Config) : Command → Shell Unit
  | run arguments => runProgram z config arguments
  | patch exe => patchImage z config exe
  | order => printOrder z config
  | fingerprint exe => printFingerprint z config exe
  | disassemble image unit => printImage z image unit

end Command

namespace Invocation

def configPath (i : Invocation) : Path := i.config.getD (i.baseDirectory.child Config.fileName)

def loadConfig (i : Invocation) (t : FileTree) : Except DocumentError Config :=
  Config.loadAt t i.baseDirectory i.configPath

def execute (z : Zstd) (i : Invocation) : Shell Unit := do
  let config ← reading fun t ↦ (i.loadConfig t).mapError DocumentError.failure
  i.command.execute z config

def buildPaths (config : Config) (t : FileTree) : List Path :=
  match Mod.findAll t config.modsPath [] with
  | .ok mods _ => mods.map Mod.buildPath
  | .error _ _ => []

/-- The files and directories that the command looks at, as far as a tree tells: which ones the
configuration names can be told when the tree holds the configuration, and which ones the mods name
when it holds the mods. -/
def concerns (i : Invocation) (t : FileTree) : List Path :=
  let image :=
    match i.command with
    | .disassemble image _ => [image]
    | _ => []
  match i.loadConfig t with
  | .error _ => [i.configPath]
  | .ok config =>
    i.configPath :: image ++
      [config.modsPath, config.baseImagePath, config.patchedImagePath, config.fingerprintPath,
        config.reportPath] ++ buildPaths config t

end Invocation

structure Response where
  code : UInt32
  output : String := ""
  errors : String := ""
  awaitsUser : Bool := false
  deriving DecidableEq, Repr

namespace CommandLine

def usageText : String :=
  "Usage: bcpatch [-b <base-dir>] [-c <config>] <command>\n\n" ++
  "Commands:\n" ++
  "  run <exe> [arguments]\n" ++
  "  patch [-e <exe>]\n" ++
  "  order\n" ++
  "  fingerprint [-e <exe>]\n" ++
  "  disasm <image> [-u <unit>]\n"

def respond (z : Zstd) (arguments : List String) (t : FileTree) : Response × FileTree :=
  match read arguments with
  | .usage => ({ code := 2, errors := usageText }, t)
  | .help => ({ code := 0, output := usageText }, t)
  | .version => ({ code := 0, output := "bcpatch " ++ programVersion ++ "\n" }, t)
  | .invoke i =>
    match i.execute z { files := t } with
    | .ok _ c => ({ code := 0, output := c.output, awaitsUser := c.awaitsUser }, c.files)
    | .error f c =>
      ({ code := 1, output := c.output, errors := "Error: " ++ f.report ++ "\n",
          awaitsUser := c.awaitsUser }, c.files)

end CommandLine

end HookPatch
