import HookPatch.Engine.Redirection
import HookPatch.Proofs.Cursor.Sweep
import Mathlib.Algebra.Ring.Nat

namespace HookPatch

theorem overwriteAll_eq (i j : Instruction) (body : List Instruction) :
    overwriteAll i j body = (body.countP (· = i), body.map fun k ↦ if k = i then j else k) := by
  obtain ⟨e, hcode, hsweep, -⟩ := (Cursor.rewrites_replace j).sweeps (decide <| · = i) body
  rw [Cursor.flatMap_ite_singleton] at hcode
  simp only [decide_eq_true_eq] at hcode
  rw [overwriteAll, hsweep, ← hcode]

namespace Redirect

def Hits (function : String) (r : Redirect) (i : Instruction) : Prop :=
  i = .call function r.argc ∨ i = .pushFunction function

instance (function : String) (r : Redirect) (i : Instruction) : Decidable (r.Hits function i) :=
  inferInstanceAs (Decidable (_ ∨ _))

def apply (function : String) (r : Redirect) (i : Instruction) : Instruction :=
  if i = .call function r.argc then .call r.replacement r.argc
  else if i = .pushFunction function then .pushFunction r.replacement
  else i

variable {function : String} {r : Redirect} {i : Instruction}

theorem apply_of_not_hits (h : ¬ r.Hits function i) : r.apply function i = i := by
  rw [apply, if_neg fun hi ↦ h (.inl hi), if_neg fun hi ↦ h (.inr hi)]

theorem Hits.reference (h : r.Hits function i) : i.reference? = some function := by
  rcases h with rfl | rfl <;> rfl

theorem Hits.apply_reference (h : r.Hits function i) :
    (r.apply function i).reference? = some r.replacement := by
  rcases h with rfl | rfl <;> simp [apply, Instruction.reference?]

theorem not_hits_apply (h : r.replacement ≠ function) (i : Instruction) :
    ¬ r.Hits function (r.apply function i) := by
  by_cases hhits : r.Hits function i
  · intro hagain
    exact h (Option.some.inj (hhits.apply_reference.symm.trans hagain.reference))
  · rwa [r.apply_of_not_hits hhits]

end Redirect

namespace Redirects

/-- What entries make of an instruction, one after another. -/
def pass (entries : List (String × Redirect)) (i : Instruction) : Instruction :=
  entries.foldl (fun i e ↦ e.2.apply e.1 i) i

def changes : List (String × Redirect) → Instruction → Nat
  | [], _ => 0
  | (function, r) :: rest, i =>
    (if r.Hits function i then 1 else 0) + changes rest (r.apply function i)

theorem pass_cons (e : String × Redirect) (entries : List (String × Redirect)) (i : Instruction) :
    pass (e :: entries) i = pass entries (e.2.apply e.1 i) := rfl

theorem pass_append (entries later : List (String × Redirect)) (i : Instruction) :
    pass (entries ++ later) i = pass later (pass entries i) := List.foldl_append

theorem changes_append (entries later : List (String × Redirect)) (i : Instruction) :
    changes (entries ++ later) i = changes entries i + changes later (pass entries i) := by
  induction entries generalizing i with
  | nil => rw [List.nil_append, changes, Nat.zero_add]; rfl
  | cons e entries ih => rw [List.cons_append, changes, changes, ih, pass_cons, Nat.add_assoc]

theorem spared {entries : List (String × Redirect)} {i : Instruction}
    (h : ∀ e ∈ entries, ¬ e.2.Hits e.1 i) : pass entries i = i ∧ changes entries i = 0 := by
  induction entries with
  | nil => exact ⟨rfl, rfl⟩
  | cons e entries ih =>
    have he : ¬ e.2.Hits e.1 i := h e List.mem_cons_self
    have hrest := ih fun e' he' ↦ h e' (List.mem_cons_of_mem _ he')
    rw [pass_cons, changes, e.2.apply_of_not_hits he, if_neg he, Nat.zero_add]
    exact hrest

theorem changes_eq_zero_iff {entries : List (String × Redirect)} {i : Instruction} :
    changes entries i = 0 ↔ ∀ e ∈ entries, ¬ e.2.Hits e.1 i := by
  refine ⟨fun h ↦ ?_, fun h ↦ (spared h).2⟩
  induction entries with
  | nil => simp
  | cons e entries ih =>
    rw [changes] at h
    have he : ¬ e.2.Hits e.1 i := by
      intro hhits
      rw [if_pos hhits] at h
      omega
    rw [if_neg he, Nat.zero_add, e.2.apply_of_not_hits he] at h
    exact List.forall_mem_cons.mpr ⟨he, ih h⟩

theorem pass_eq_self {entries : List (String × Redirect)} {i : Instruction}
    (h : changes entries i = 0) : pass entries i = i :=
  (spared (changes_eq_zero_iff.mp h)).1

end Redirects

open Redirects

theorem overwriteAll_twice (function : String) (r : Redirect) (body : List Instruction) :
    overwriteAll (.pushFunction function) (.pushFunction r.replacement)
        (overwriteAll (.call function r.argc) (.call r.replacement r.argc) body).2 =
      (body.countP (· = .pushFunction function), body.map (r.apply function)) := by
  rw [overwriteAll_eq, overwriteAll_eq]
  refine Prod.ext ?_ ?_
  · rw [List.countP_map]
    refine List.countP_congr fun i _ ↦ ?_
    by_cases hi : i = .call function r.argc <;> simp [hi]
  · rw [List.map_map]
    refine List.map_congr_left fun i _ ↦ ?_
    by_cases hi : i = .call function r.argc <;> simp [Redirect.apply, hi]

theorem sum_changes_cons (function : String) (r : Redirect) (entries : List (String × Redirect))
    (body : List Instruction) :
    (body.map (changes ((function, r) :: entries))).sum =
      body.countP (· = .call function r.argc) + body.countP (· = .pushFunction function) +
        ((body.map (r.apply function)).map (changes entries)).sum := by
  induction body with
  | nil => rfl
  | cons i body ih =>
    have hi : changes ((function, r) :: entries) i =
        (if i = .call function r.argc then 1 else 0) +
          (if i = .pushFunction function then 1 else 0) + changes entries (r.apply function i) := by
      by_cases hcall : i = .call function r.argc <;> simp [changes, Redirect.Hits, hcall]
    simp only [List.map_cons, List.sum_cons, List.countP_cons, decide_eq_true_eq, ih, hi]
    omega

/-- The entries act on every instruction for itself. -/
theorem redirectBody_eq (entries : List (String × Redirect)) (body : List Instruction) :
    redirectBody entries body = ((body.map (changes entries)).sum, body.map (pass entries)) := by
  induction entries generalizing body with
  | nil =>
    have hzero : (body.map fun i ↦ changes [] i).sum = 0 := by simp [changes]
    have hsame : body.map (pass []) = body := List.map_id body
    rw [redirectBody, hzero, hsame]
  | cons e entries ih =>
    obtain ⟨function, r⟩ := e
    have hcalls : (overwriteAll (.call function r.argc) (.call r.replacement r.argc) body).1 =
        body.countP (· = .call function r.argc) := by rw [overwriteAll_eq]
    simp only [redirectBody, overwriteAll_twice, hcalls, ih]
    exact Prod.ext (sum_changes_cons function r entries body).symm List.map_map

end HookPatch
