import HookPatch.FileTree.Path

namespace HookPatch

/-- The names on the way from the root, outermost first. -/
abbrev Location := List String

inductive Entry
  | file (content : ByteArray)
  | directory

inductive AccessFault
  | notFound
  | alreadyExists
  | notADirectory
  | isADirectory
  | invalidPath
  | invalidText
  deriving DecidableEq, Repr

structure FileTree where
  /-- Every file and directory but the root. -/
  entries : List (Location × Entry) := []
  workingDirectory : Location := []

namespace FileTree

def entry? (t : FileTree) (l : Location) : Option Entry :=
  if l.isEmpty then some .directory else t.entries.lookup l

def put (t : FileTree) (l : Location) (e : Entry) : FileTree :=
  { t with entries := (l, e) :: t.entries.filter (·.1 ≠ l) }

def erase (t : FileTree) (l : Location) : FileTree :=
  { t with entries := t.entries.filter fun (m, _) ↦ !l.isPrefixOf m }

def empty (t : FileTree) (l : Location) : FileTree :=
  { t with entries := t.entries.filter fun (m, _) ↦ m = l || !l.isPrefixOf m }

def maxName : Nat := 255

def walk (t : FileTree) (l : Location) : List Path.Step → Except AccessFault Location
  | [] => .ok l
  | s :: rest =>
    match t.entry? l with
    | none => .error .notFound
    | some (.file _) => .error .notADirectory
    | some .directory =>
      match s with
      | .here => t.walk l rest
      | .up => t.walk l.dropLast rest
      | .into name =>
        if name.utf8ByteSize ≤ maxName then t.walk (l ++ [name]) rest else .error .invalidPath

def maxPath : Nat := 4096

def admits (p : Path) : Bool := !p.text.toList.contains '\x00' && p.text.utf8ByteSize < maxPath

def follow (t : FileTree) (p : Path) (steps : List Path.Step) : Except AccessFault Location :=
  if p.text.isEmpty then .error .notFound
  else if !admits p then .error .invalidPath
  else t.walk (if p.isAbsolute then [] else t.workingDirectory) steps

/-- The location that a path leads to, whether there is an entry or not. -/
def locate (t : FileTree) (p : Path) : Except AccessFault Location := t.follow p p.steps

def entryAt (t : FileTree) (p : Path) : Except AccessFault Entry := do
  match t.entry? (← t.locate p) with
  | some e => return e
  | none => .error .notFound

def existsAt (t : FileTree) (p : Path) : Bool := (t.entryAt p).isOk

def isFile (t : FileTree) (p : Path) : Bool :=
  match t.entryAt p with
  | .ok (.file _) => true
  | _ => false

def isDirectory (t : FileTree) (p : Path) : Bool :=
  match t.entryAt p with
  | .ok .directory => true
  | _ => false

def read (t : FileTree) (p : Path) : Except AccessFault ByteArray := do
  match ← t.entryAt p with
  | .file content => return content
  | .directory => .error .isADirectory

def readText (t : FileTree) (p : Path) : Except AccessFault String := do
  match String.fromUTF8? (← t.read p) with
  | some s => return s
  | none => .error .invalidText

def write (t : FileTree) (p : Path) (content : ByteArray) : Except AccessFault FileTree := do
  let l ← t.locate p
  match t.entry? l with
  | some .directory => .error .isADirectory
  | _ => return t.put l (.file content)

def writeText (t : FileTree) (p : Path) (content : String) : Except AccessFault FileTree :=
  t.write p content.toUTF8

def removeFile (t : FileTree) (p : Path) : Except AccessFault FileTree := do
  let l ← t.locate p
  match t.entry? l with
  | none => .error .notFound
  | some .directory => .error .isADirectory
  | some (.file _) => return t.erase l

/-- Removes a file, or a directory with all that is in it. A directory that a path names by dots is
only emptied. -/
def remove (t : FileTree) (p : Path) : Except AccessFault FileTree := do
  let l ← t.locate p
  match t.entry? l with
  | none => .error .notFound
  | some (.file _) => return t.erase l
  | some .directory => return if p.endsInDots then t.empty l else t.erase l

def makeDirectory (t : FileTree) (p : Path) : Except AccessFault FileTree := do
  let steps := if p.segments.getLast? = some "" then p.steps.dropLast else p.steps
  let l ← t.follow p steps
  match t.entry? l with
  | some _ => .error .alreadyExists
  | none => return t.put l .directory

def makeDirectories (t : FileTree) : List Path → FileTree × Except AccessFault Unit
  | [] => (t, .ok ())
  | p :: rest =>
    match t.makeDirectory p with
    | .ok t => t.makeDirectories rest
    | .error e => if t.isDirectory p then t.makeDirectories rest else (t, .error e)

/-- Makes a directory and the directories on the way to it. The empty path asks for nothing. -/
def makePath (t : FileTree) (p : Path) : FileTree × Except AccessFault Unit :=
  if p.text.isEmpty then (t, .ok ())
  else if !admits p then (t, .error .invalidPath)
  else t.makeDirectories (p.ancestors.filter (!·.text.isEmpty)).reverse

/-- Copies a file. The target is emptied before the source is read. -/
def copy (t : FileTree) (source target : Path) : FileTree × Except AccessFault Unit :=
  match t.read source with
  | .error e => (t, .error e)
  | .ok _ =>
    match t.write target ByteArray.empty with
    | .error e => (t, .error e)
    | .ok opened =>
      match (opened.read source).bind (opened.write target) with
      | .error e => (opened, .error e)
      | .ok t => (t, .ok ())

def namesIn (t : FileTree) (l : Location) : List String :=
  (t.entries.filterMap fun (m, _) ↦
    match l.isPrefixOf? m with
    | some [name] => some name
    | _ => none).mergeSort (· ≤ ·)

def list (t : FileTree) (p : Path) : Except AccessFault (List String) := do
  let l ← t.locate p
  match t.entry? l with
  | none => .error .notFound
  | some (.file _) => .error .notADirectory
  | some .directory => return t.namesIn l

def files (t : FileTree) : List String :=
  (t.entries.filterMap fun (l, e) ↦
    match e, t.workingDirectory.isPrefixOf? l with
    | .file _, some names => some ("/".intercalate names)
    | _, _ => none).mergeSort (· ≤ ·)

end FileTree

end HookPatch
