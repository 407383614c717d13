import HookPatch.Failure
import HookPatch.FileTree.Basic
import HookPatch.Json.Image
import HookPatch.Json.Reader
import HookPatch.Json.Writer

namespace HookPatch

inductive ImageError
  | inaccessible (path : Path)
  | malformed (path : Path)
  | corrupt (path : Path)
  deriving DecidableEq, Repr

def ImageError.message : ImageError → String
  | inaccessible path => "failed to access image file " ++ path.text
  | malformed path => "malformed image file " ++ path.text
  | corrupt path => "failed to (de)compress image file " ++ path.text

def ImageError.fault : ImageError → Fault
  | inaccessible _ => .access
  | malformed _ => .json
  | corrupt _ => .access

def ImageError.causes (e : ImageError) : List String := [e.fault.message]

inductive ImageFormat
  | plain
  | compressed (level : Nat)
  deriving DecidableEq, Repr

namespace ImageFormat

def compressedAt (level : Int) : ImageFormat := compressed (min 22 (max 1 level.toNat))

def isCompressed : ImageFormat → Bool
  | plain => false
  | compressed _ => true

end ImageFormat

/-- A compressor of files, with the way back. -/
structure Zstd where
  encode? : (level : Nat) → (content : ByteArray) → Option ByteArray
  decode? : (frames : ByteArray) → Option ByteArray

def Zstd.magic : List UInt8 := [0x28, 0xb5, 0x2f, 0xfd]

namespace Image

def isFrame (bytes : ByteArray) : Bool := Zstd.magic.isPrefixOf bytes.data.toList

end Image

/-- What is relied on of a compressor. -/
structure Zstd.Lawful (z : Zstd) : Prop where
  isFrame_of_encode : ∀ {level : Nat} {content bytes : ByteArray},
    z.encode? level content = some bytes → Image.isFrame bytes
  decode?_of_encode : ∀ {level : Nat} {content bytes : ByteArray},
    z.encode? level content = some bytes → z.decode? bytes = some content

namespace Image

variable (z : Zstd)

/-- The document of an image: indented when plain, in one line when compressed. -/
def encode? (image : Image) : ImageFormat → Option ByteArray
  | .plain => some image.toJson.pretty.toUTF8
  | .compressed level => z.encode? level image.toJson.compact.toUTF8

/-- The document in a file. The magic tells a frame from a plain one, whatever the format for writing
is. -/
def unpack? (bytes : ByteArray) : Option ByteArray :=
  if isFrame bytes then z.decode? bytes else some bytes

def decode (path : Path) (bytes : ByteArray) : Except ImageError Image :=
  match unpack? z bytes with
  | none => .error (.corrupt path)
  | some document =>
    match (Json.ofBytes? document).bind Image.ofJson? with
    | none => .error (.malformed path)
    | some image => .ok image

def load (t : FileTree) (path : Path) : Except ImageError Image :=
  match t.read path with
  | .error _ => .error (.inaccessible path)
  | .ok bytes => decode z path bytes

def save (image : Image) (format : ImageFormat) (t : FileTree) (path : Path) :
    Except ImageError FileTree :=
  match image.encode? z format with
  | none => .error (.corrupt path)
  | some bytes =>
    match t.write path bytes with
    | .error _ => .error (.inaccessible path)
    | .ok t => .ok t

end Image

end HookPatch
