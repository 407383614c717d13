import HookPatch.Mod.LoadOrder

namespace HookPatch

inductive ScriptUse
  | softHook
  | arityHook
  | defineFunction
  deriving DecidableEq, Repr

def ScriptUse.phrase : ScriptUse → String
  | softHook => "hook code"
  | arityHook => "hook function"
  | defineFunction => "create function"

inductive Warning
  | missingMods (directory : Path)
  | missingMetadata (directory : Path)
  | skippedMod (directory : Path)
  | excludedMod (reason : MissingDependency)
  | replacedRegistration (modId : String)
  /-- Nothing in the fingerprint would tell a change of the code of a mod. -/
  | untrackedCode (modId : String)
  | missingScript (use : ScriptUse) (name script : String)
  deriving DecidableEq, Repr

def Warning.message : Warning → String
  | missingMods directory => "Mod directory does not exist: " ++ directory.text
  | missingMetadata directory => "No metadata file found for mod: " ++ directory.text
  | skippedMod directory => "Skipping mod " ++ directory.text
  | excludedMod reason => reason.message ++ ", not loading it"
  | replacedRegistration modId => "Replacing registered implementation of mod " ++ modId
  | untrackedCode modId =>
    "Mod " ++ modId ++
      " has no artifact and no build version; changes to its code will not trigger a rebuild"
  | missingScript use name script =>
    "Couldn't " ++ use.phrase ++ " " ++ name ++ ", script " ++ script ++ " is not loaded"

end HookPatch
