namespace HookPatch

structure Path where
  text : String
  deriving DecidableEq, Repr

namespace Path

def isAbsolute (p : Path) : Bool := p.text.toList.head? = some '/'

/-- The parts between slashes, without the empty one in front of an absolute path. -/
def segments (p : Path) : List String :=
  let parts := (p.text.toList.splitOn '/').map String.ofList
  if p.isAbsolute then parts.tail else parts

def join (p q : Path) : Path :=
  if q.isAbsolute then q
  else
    let last := p.text.toList.getLast?
    if last.isNone || last = some '/' then ⟨p.text ++ q.text⟩ else ⟨p.text ++ "/" ++ q.text⟩

def child (p : Path) (name : String) : Path := p.join ⟨name⟩

/-- Removes from segments in reverse those that are no components; `first` holds of the segment that
starts a relative path. -/
def dropEmpty (relative : Bool) : List String → List String
  | [] => []
  | s :: rest =>
    if s = "" || (s = "." && !(relative && rest.isEmpty)) then dropEmpty relative rest
    else s :: rest

def reversed (p : Path) : List String := dropEmpty (!p.isAbsolute) p.segments.reverse

def parent? (p : Path) : Option Path :=
  match p.reversed with
  | [] => none
  | _ :: rest =>
    let text := "/".intercalate (dropEmpty (!p.isAbsolute) rest).reverse
    some ⟨if p.isAbsolute then "/" ++ text else text⟩

def fileName? (p : Path) : Option String :=
  match p.reversed with
  | [] => none
  | s :: _ => if s = "." || s = ".." then none else some s

/-- What stands behind the last dot of a file name, unless the dot is its first character. -/
def extensionOf? (name : String) : Option String :=
  match (name.toList.reverse.span (· ≠ '.')) with
  | (extension, '.' :: _ :: _) => some (String.ofList extension.reverse)
  | _ => none

def extension? (p : Path) : Option String := p.fileName?.bind extensionOf?

def ancestorsFor : Nat → Path → List Path
  | 0, p => [p]
  | fuel + 1, p =>
    match p.parent? with
    | none => [p]
    | some q => p :: ancestorsFor fuel q

def ancestors (p : Path) : List Path := ancestorsFor p.reversed.length p

inductive Step
  | here
  | up
  | into (name : String)
  deriving DecidableEq, Repr

def stepOf (segment : String) : Step :=
  if segment = "." then .here else if segment = ".." then .up else .into segment

def endsInDots (p : Path) : Bool :=
  (p.segments.filter (· ≠ "")).getLast?.any fun s ↦ s = "." || s = ".."

def steps (p : Path) : List Step :=
  (p.segments.filter (· ≠ "")).map stepOf ++ if p.segments.getLast? = some "" then [.here] else []

end Path

end HookPatch
