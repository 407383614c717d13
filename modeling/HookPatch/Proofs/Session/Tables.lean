import HookPatch.Session.HookChains
import HookPatch.Session.Redirects
import Mathlib.Data.List.Basic

namespace HookPatch

theorem lookup_cons_eq_ite {α : Type} (name key : String) (a : α) (rest : List (String × α)) :
    ((key, a) :: rest).lookup name = if name = key then some a else rest.lookup name := by
  by_cases h : name = key
  · subst h; simp
  · rw [List.lookup_cons, beq_false_of_ne h, if_neg h]

namespace HookChains

def preserved (h : HookChains) : List String := h.chains.flatMap (·.2)

theorem lookup_extendChain (name preserved other : String) (chains : List (String × List String)) :
    (extendChain name preserved chains).lookup other =
      if other = name then some ((chains.lookup name).getD [] ++ [preserved])
      else chains.lookup other := by
  induction chains with
  | nil => simp [extendChain, lookup_cons_eq_ite]
  | cons entry rest ih =>
    obtain ⟨key, chain⟩ := entry
    by_cases hkey : key = name
    · subst hkey
      by_cases h : other = key <;> simp [extendChain, lookup_cons_eq_ite, h]
    · rw [extendChain, if_neg hkey, lookup_cons_eq_ite, ih, lookup_cons_eq_ite, lookup_cons_eq_ite,
        if_neg (Ne.symm hkey)]
      by_cases h : other = name
      · subst h; simp [Ne.symm hkey]
      · simp [h]

theorem chain_record (h : HookChains) (name preserved other : String) :
    (h.record name preserved).chain other =
      if other = name then h.chain name ++ [preserved] else h.chain other := by
  rw [chain, record, lookup_extendChain]
  split <;> rfl

theorem preserved_record (h : HookChains) (name preserved : String) :
    (h.record name preserved).preserved.Perm (preserved :: h.preserved) := by
  obtain ⟨chains⟩ := h
  simp only [record, HookChains.preserved]
  induction chains with
  | nil => exact .refl _
  | cons entry rest ih =>
    obtain ⟨key, chain⟩ := entry
    rw [extendChain]
    split
    · simp only [List.flatMap_cons, List.append_assoc, List.singleton_append]
      exact List.perm_middle
    · simp only [List.flatMap_cons]
      exact (ih.append_left chain).trans List.perm_middle

end HookChains

namespace Redirects

theorem mem_insert {t : Redirects} {function : String} {r : Redirect} {e : String × Redirect}
    (h : e ∈ (t.insert function r).entries) : e = (function, r) ∨ e ∈ t.entries :=
  mem_insertEntry h

theorem lookup_eq_some_iff_mem {l : List (String × Redirect)} (h : l.Pairwise (·.1 < ·.1))
    {function : String} {r : Redirect} : l.lookup function = some r ↔ (function, r) ∈ l := by
  induction l with
  | nil => simp
  | cons entry rest ih =>
    obtain ⟨key, s⟩ := entry
    obtain ⟨hbefore, hrest⟩ := List.pairwise_cons.mp h
    rw [lookup_cons_eq_ite]
    split
    · rename_i heq
      subst heq
      have hnot : (function, r) ∉ rest := fun hmem ↦
        String.lt_irrefl function (hbefore (function, r) hmem)
      simp [hnot, eq_comm]
    · rename_i hne
      simp [ih hrest, hne]

theorem get?_eq_some_iff {t : Redirects} {function : String} {r : Redirect} :
    t.get? function = some r ↔ (function, r) ∈ t.entries :=
  lookup_eq_some_iff_mem t.ordered

theorem get?_of_mem {t : Redirects} {e : String × Redirect} (h : e ∈ t.entries) :
    t.get? e.1 = some e.2 := get?_eq_some_iff.mpr h

/-- The entries of smaller functions stand before an entry, those of greater ones behind it. -/
theorem exists_split {t : Redirects} {function : String} {r : Redirect}
    (h : t.get? function = some r) : ∃ before after, t.entries = before ++ (function, r) :: after ∧
      (∀ e ∈ before, e.1 < function) ∧ ∀ e ∈ after, function < e.1 := by
  obtain ⟨before, after, hsplit⟩ := List.append_of_mem (get?_eq_some_iff.mp h)
  have hordered := t.ordered
  rw [hsplit, List.pairwise_append] at hordered
  obtain ⟨-, hafter, hbefore⟩ := hordered
  exact ⟨before, after, hsplit, fun e he ↦ hbefore e he _ List.mem_cons_self,
    (List.pairwise_cons.mp hafter).1⟩

theorem lookup_insertEntry (function : String) (r : Redirect) (other : String)
    (l : List (String × Redirect)) :
    (insertEntry function r l).lookup other = if other = function then some r else l.lookup other := by
  induction l with
  | nil => rw [insertEntry, lookup_cons_eq_ite]
  | cons entry rest ih =>
    obtain ⟨key, s⟩ := entry
    rw [insertEntry]
    split
    · rw [lookup_cons_eq_ite]
    · split
      · rename_i heq
        subst heq
        simp only [lookup_cons_eq_ite]
        split <;> rfl
      · rename_i hne
        simp only [lookup_cons_eq_ite, ih]
        by_cases hother : other = key
        · subst hother
          simp [Ne.symm hne]
        · simp [hother]

theorem get?_insert (t : Redirects) (function : String) (r : Redirect) (other : String) :
    (t.insert function r).get? other = if other = function then some r else t.get? other :=
  lookup_insertEntry function r other t.entries

end Redirects

end HookPatch
