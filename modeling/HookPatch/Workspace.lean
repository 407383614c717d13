import HookPatch.Session.ExtensionIds
import HookPatch.Session.GeneratedNames
import HookPatch.Session.HookChains
import HookPatch.Session.Redirects

namespace HookPatch

structure Session where
  hooks : HookChains := {}
  redirects : Redirects := .empty
  names : GeneratedNames := {}
  ids : ExtensionIds := {}
  deriving DecidableEq, Repr

structure Workspace where
  image : Image := {}
  session : Session := {}
  deriving DecidableEq, Repr

end HookPatch
