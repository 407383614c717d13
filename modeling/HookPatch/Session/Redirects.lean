namespace HookPatch

structure Redirect where
  replacement : String
  argc : UInt16
  deriving DecidableEq, Repr

structure Redirects where
  entries : List (String × Redirect) := []
  ordered : entries.Pairwise (·.1 < ·.1) := by exact .nil
  deriving DecidableEq, Repr

namespace Redirects

def empty : Redirects := {}

@[simp]
theorem entries_empty : empty.entries = [] := rfl

def get? (t : Redirects) (function : String) : Option Redirect := t.entries.lookup function

def size (t : Redirects) : Nat := t.entries.length

def insertEntry (function : String) (r : Redirect) :
    List (String × Redirect) → List (String × Redirect)
  | [] => [(function, r)]
  | (key, s) :: rest =>
    if function < key then (function, r) :: (key, s) :: rest
    else if function = key then (function, r) :: rest
    else (key, s) :: insertEntry function r rest

theorem mem_insertEntry {function : String} {r : Redirect} {l : List (String × Redirect)}
    {e : String × Redirect} (h : e ∈ insertEntry function r l) : e = (function, r) ∨ e ∈ l := by
  induction l with
  | nil => simpa [insertEntry] using h
  | cons entry rest ih =>
    obtain ⟨key, s⟩ := entry
    rw [insertEntry] at h
    split at h
    · simpa using h
    · split at h
      · rcases List.mem_cons.mp h with h | h
        · exact .inl h
        · exact .inr (List.mem_cons_of_mem _ h)
      · rcases List.mem_cons.mp h with h | h
        · exact .inr (h ▸ List.mem_cons_self)
        · exact (ih h).imp_right (List.mem_cons_of_mem _)

theorem insertEntry_ordered {l : List (String × Redirect)} (h : l.Pairwise (·.1 < ·.1))
    (function : String) (r : Redirect) : (insertEntry function r l).Pairwise (·.1 < ·.1) := by
  induction l with
  | nil => simp [insertEntry]
  | cons entry rest ih =>
    obtain ⟨key, s⟩ := entry
    obtain ⟨hbefore, hrest⟩ := List.pairwise_cons.mp h
    rw [insertEntry]
    split
    · rename_i hlt
      refine List.pairwise_cons.mpr ⟨fun e he ↦ ?_, h⟩
      rcases List.mem_cons.mp he with rfl | he
      · exact hlt
      · exact String.lt_trans hlt (hbefore e he)
    · rename_i hge
      split
      · rename_i heq
        exact List.pairwise_cons.mpr ⟨fun e he ↦ heq ▸ hbefore e he, hrest⟩
      · rename_i hne
        refine List.pairwise_cons.mpr ⟨fun e he ↦ ?_, ih hrest⟩
        rcases mem_insertEntry he with rfl | he
        · exact String.not_le.mp fun hle ↦ hne (String.le_antisymm hle (String.not_lt.mp hge))
        · exact hbefore e he

def insert (t : Redirects) (function : String) (r : Redirect) : Redirects where
  entries := insertEntry function r t.entries
  ordered := insertEntry_ordered t.ordered function r

end Redirects

end HookPatch
