import HookPatch.Instruction

namespace HookPatch

structure Cursor where
  code : List Instruction
  /-- The index of the current instruction, once a search has found one. -/
  position : Option Nat := none
  deriving DecidableEq, Repr

namespace Cursor

def start (c : Cursor) : Nat :=
  match c.position with
  | none => 0
  | some i => i + 1

def ahead (c : Cursor) : List Instruction := c.code.drop c.start

def current? (c : Cursor) : Option Instruction := c.position.bind fun i ↦ c.code[i]?

def next? (p : Instruction → Bool) (c : Cursor) : Option Cursor :=
  (c.ahead.findIdx? p).map fun offset ↦ { c with position := some (c.start + offset) }

/-- Moves to the next instruction that satisfies `p`, or stays, and tells which. -/
def goto (p : Instruction → Bool) (c : Cursor) : Bool × Cursor :=
  match c.next? p with
  | some d => (true, d)
  | none => (false, c)

def replace (i : Instruction) (c : Cursor) : Option Instruction × Cursor :=
  match c.position, c.current? with
  | some k, some old => (some old, { c with code := c.code.set k i })
  | _, _ => (none, c)

/-- Inserts behind the current instruction, or at the start, and moves onto the new one. -/
def insert (i : Instruction) (c : Cursor) : Cursor :=
  { code := c.code.insertIdx c.start i, position := some c.start }

/-- Removes the current instruction, so that the next search starts at its successor. -/
def remove (c : Cursor) : Option Instruction × Cursor :=
  match c.position, c.current? with
  | some k, some old =>
    (some old, { code := c.code.eraseIdx k, position := if k = 0 then none else some (k - 1) })
  | _, _ => (none, c)

def sweepFor (p : Instruction → Bool) (edit : Cursor → Cursor) : Nat → Cursor → Nat × Cursor
  | 0, c => (0, c)
  | fuel + 1, c =>
    match c.next? p with
    | none => (0, c)
    | some d =>
      let (rounds, last) := sweepFor p edit fuel (edit d)
      (rounds + 1, last)

/-- Searches and edits until nothing ahead matches. An edit of the current instruction leaves what
lies ahead of it alone, so there are at most as many rounds as instructions ahead. -/
def sweep (p : Instruction → Bool) (edit : Cursor → Cursor) (c : Cursor) : Nat × Cursor :=
  sweepFor p edit c.ahead.length c

end Cursor

end HookPatch
