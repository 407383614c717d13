import HookPatch.Image

namespace HookPatch

def generatedMark : String := "__hook_"

def isGenerated (name : String) : Bool := generatedMark.toList.isPrefixOf name.toList

structure GeneratedNames where
  counter : UInt32 := 0
  deriving DecidableEq, Repr

namespace GeneratedNames

def name (base role : String) (n : UInt32) : String :=
  generatedMark ++ base ++ "_" ++ role ++ "_" ++ toString n.toNat

def firstFree (image : Image) (base role : String) : Nat → UInt32 → UInt32
  | 0, n => n
  | fuel + 1, n =>
    if image.hasName (name base role n) then firstFree image base role fuel (n + 1) else n

/-- How many names an image has taken, counted with repetition. -/
def namesTaken (image : Image) : Nat :=
  image.units.length + image.functions.length + image.nativeFunctions.length

/-- The next free name. Different numbers give different names, so at most as many numbers are
passed over as names are taken. -/
def next (g : GeneratedNames) (image : Image) (base role : String) : String × GeneratedNames :=
  let n := firstFree image base role (namesTaken image) (g.counter + 1)
  (name base role n, { counter := n })

end GeneratedNames

end HookPatch
