import HookPatch.Cursor
import HookPatch.Engine.Edit

namespace HookPatch

def overwriteAll (i j : Instruction) (body : List Instruction) : Nat × List Instruction :=
  let (count, c) := Cursor.sweep (· = i) (fun c ↦ (c.replace j).2) { code := body }
  (count, c.code)

/-- Redirects a body by one entry after another, first its calls and then its references, and counts
the changed instructions. -/
def redirectBody : List (String × Redirect) → List Instruction → Nat × List Instruction
  | [], body => (0, body)
  | (function, r) :: rest, body =>
    let (calls, body) := overwriteAll (.call function r.argc) (.call r.replacement r.argc) body
    let (references, body) :=
      overwriteAll (.pushFunction function) (.pushFunction r.replacement) body
    let (count, body) := redirectBody rest body
    (calls + references + count, body)

def CodeUnit.isRedirected (u : CodeUnit) : Bool := !u.isChild && !isGenerated u.name

def redirectUnit (t : Redirects) (u : CodeUnit) : Nat × CodeUnit :=
  if u.isRedirected then
    let (count, body) := redirectBody t.entries u.body
    (count, { u with body })
  else (0, u)

def Redirects.dangling? (t : Redirects) (image : Image) : Option (String × Redirect) :=
  t.entries.find? fun (_, r) ↦ (image.unit? r.replacement).isNone

/-- Calls are matched by name and argument count, references by name alone. Children and generated
units are left as they are, so that a replacement goes on calling what it replaces. -/
def redirectImage (t : Redirects) (image : Image) : Except EditError (Nat × Image) :=
  match t.dangling? image with
  | some (function, r) => .error (.danglingRedirect function r.replacement)
  | none =>
    let results := image.units.map (redirectUnit t)
    let count := results.foldr (fun result n ↦ result.1 + n) 0
    .ok (count, { image with units := results.map (·.2) })

end HookPatch
