import HookPatch.Instruction

namespace HookPatch

structure Local where
  name : String
  index : UInt32
  deriving DecidableEq, Repr

structure CodeUnit where
  name : String
  body : List Instruction := []
  arity : UInt16 := 0
  localCount : UInt16 := 0
  locals : List Local := []
  /-- The unit whose body this entry shares. -/
  parent : Option String := none
  children : List String := []
  deriving DecidableEq, Repr

structure Declaration where
  name : String
  code : Option String := none
  deriving DecidableEq, Repr

structure NativeFunction where
  name : String
  symbol : String
  kind : UInt32
  id : UInt32
  argc : UInt16 := 0
  deriving DecidableEq, Repr

structure Library where
  file : String
  functions : List NativeFunction := []
  deriving DecidableEq, Repr

structure Extension where
  name : String
  version : String := ""
  libraries : List Library := []
  deriving DecidableEq, Repr

structure Image where
  units : List CodeUnit := []
  functions : List Declaration := []
  extensions : List Extension := []
  deriving DecidableEq, Repr

def CodeUnit.isChild (u : CodeUnit) : Bool := u.parent.isSome

def Extension.functions (e : Extension) : List NativeFunction := e.libraries.flatMap (·.functions)

def modifyFirst (p : α → Bool) (f : α → α) : List α → List α
  | [] => []
  | a :: as => if p a then f a :: as else a :: modifyFirst p f as

namespace Image

def unit? (image : Image) (name : String) : Option CodeUnit :=
  image.units.find? (·.name = name)

def unitIndex? (image : Image) (name : String) : Option Nat :=
  image.units.findIdx? (·.name = name)

def function? (image : Image) (name : String) : Option Declaration :=
  image.functions.find? (·.name = name)

def nativeFunctions (image : Image) : List NativeFunction :=
  image.extensions.flatMap (·.functions)

def nativeFunction? (image : Image) (name : String) : Option NativeFunction :=
  image.nativeFunctions.find? (·.name = name)

def isCallable (image : Image) (name : String) : Bool :=
  (image.unit? name).isSome || (image.function? name).isSome

/-- Whether a name is taken: by a code unit, a declared function or a native function. -/
def hasName (image : Image) (name : String) : Bool :=
  image.isCallable name || (image.nativeFunction? name).isSome

def arity? (image : Image) (name : String) : Option UInt16 :=
  match image.unit? name with
  | some u => some u.arity
  | none => do
    let f ← image.function? name
    let u ← image.unit? (← f.code)
    return u.arity

def instructionCount (image : Image) : Nat := (image.units.flatMap (·.body)).length

def addUnit (image : Image) (u : CodeUnit) : Image := { image with units := image.units ++ [u] }

/-- Puts `u` right after the unit at `anchor`, or at the end. -/
def insertBehind (image : Image) (anchor : Nat) (u : CodeUnit) : Image :=
  { image with units := image.units.insertIdx (min (anchor + 1) image.units.length) u }

def modifyUnit (image : Image) (name : String) (f : CodeUnit → CodeUnit) : Image :=
  { image with units := modifyFirst (·.name = name) f image.units }

def declare (image : Image) (name : String) (code : Option String) : Image :=
  if (image.function? name).isSome then image
  else { image with functions := image.functions ++ [{ name, code }] }

def addExtension (image : Image) (e : Extension) : Image :=
  { image with extensions := image.extensions ++ [e] }

end Image

end HookPatch
