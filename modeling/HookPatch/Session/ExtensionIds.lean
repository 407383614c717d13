import HookPatch.Image

namespace HookPatch

/-- The cursor never moves back, so an id is given out once in a session, even if its function is
removed again. -/
structure ExtensionIds where
  cursor : UInt32 := 0
  deriving DecidableEq, Repr

namespace ExtensionIds

/-- The first id from `id` on that is not taken, after passing over at most `fuel` ids. -/
def firstFree (taken : List UInt32) : Nat → UInt32 → UInt32
  | 0, id => id
  | fuel + 1, id => if id ∈ taken then firstFree taken fuel (id + 1) else id

/-- The smallest id from the cursor on that no native function of the image has. -/
def next (g : ExtensionIds) (image : Image) : UInt32 × ExtensionIds :=
  let taken := image.nativeFunctions.map (·.id)
  let id := firstFree taken taken.length g.cursor
  (id, { cursor := id + 1 })

end ExtensionIds

end HookPatch
