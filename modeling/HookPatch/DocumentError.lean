import HookPatch.Failure
import HookPatch.FileTree.Basic

namespace HookPatch

inductive DocumentKind
  | config
  | metadata
  | manifest
  deriving DecidableEq, Repr

def DocumentKind.name : DocumentKind → String
  | config => "config file"
  | metadata => "mod metadata"
  | manifest => "manifest"

structure DocumentError where
  kind : DocumentKind
  path : Path
  fault : Fault
  deriving DecidableEq, Repr

namespace DocumentError

def message (e : DocumentError) : String :=
  (if e.fault = .access then "Failed to read " else "Failed to parse ") ++ e.kind.name ++ " " ++
    e.path.text

def failure (e : DocumentError) : Failure := { message := e.message, causes := [e.fault.message] }

end DocumentError

def loadDocument (kind : DocumentKind) (format : Fault) (read? : String → Option α) (t : FileTree)
    (path : Path) : Except DocumentError α :=
  match t.readText path with
  | .error _ => .error { kind, path, fault := .access }
  | .ok text =>
    match read? text with
    | none => .error { kind, path, fault := format }
    | some a => .ok a

end HookPatch
