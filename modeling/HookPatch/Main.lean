import HookPatch.CommandLine.Execution

namespace HookPatch.Program

def locationOf (place : String) : Location :=
  ((place.toList.splitOn '/').map String.ofList).filter (· ≠ "")

def emptyTree (workingDirectory : Location) : FileTree :=
  let way := (List.range workingDirectory.length).map fun n ↦ workingDirectory.take (n + 1)
  { entries := way.map fun l ↦ (l, .directory), workingDirectory }

partial def fetch (t : FileTree) (path : Path) : IO FileTree := do
  let .ok l := t.locate path | return t
  let place := (← IO.currentDir) / path.text
  if ← place.isDir then
    let mut tree := t.put l .directory
    for entry in ← place.readDir do
      tree ← fetch tree (path.child entry.fileName)
    return tree
  else if ← place.pathExists then
    return t.put l (.file (← IO.FS.readBinFile place))
  else return t

def fetchPath (t : FileTree) (path : Path) : IO FileTree := do
  let mut tree := t
  for parent in path.ancestors.tail.reverse do
    if let .ok l := tree.locate parent then
      if ← ((← IO.currentDir) / parent.text).isDir then tree := tree.put l .directory
  fetch tree path

/-- Adds everything that an invocation concerns: first the configuration, then what it names, then
what the mods name. -/
def fetchAll (i : Invocation) (t : FileTree) : IO FileTree := do
  let mut tree := t
  for _ in [0, 1, 2] do
    tree ← (i.concerns tree).foldlM fetchPath tree
  return tree

def carryOut (before after : FileTree) : IO Unit := do
  for (l, _) in before.entries do
    if (after.entry? l).isNone then IO.FS.removeFile ("/" ++ "/".intercalate l)
  for (l, e) in after.entries.reverse do
    let place := "/" ++ "/".intercalate l
    match e, before.entry? l with
    | .directory, none => IO.FS.createDirAll place
    | .directory, some _ => pure ()
    | .file new, some (.file old) => if new.data ≠ old.data then IO.FS.writeBinFile place new
    | .file new, _ => IO.FS.writeBinFile place new

def run (z : Zstd) (arguments : List String) : IO UInt32 := do
  let start := emptyTree (locationOf (← IO.currentDir).toString)
  let tree ←
    match CommandLine.read arguments with
    | .invoke i => fetchAll i start
    | _ => pure start
  let (response, changed) := CommandLine.respond z arguments tree
  carryOut tree changed
  IO.print response.output
  if response.awaitsUser then discard (← IO.getStdin).getLine
  IO.eprint response.errors
  return response.code

end HookPatch.Program
