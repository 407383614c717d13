import HookPatch.Proofs.Engine.CallSites
import HookPatch.Proofs.Engine.Operation
import HookPatch.Proofs.Session.Tables

namespace HookPatch

namespace Redirects

variable {t : Redirects} {function : String} {r : Redirect} {i : Instruction}

def substitute (t : Redirects) : Instruction → Instruction
  | .call target argc =>
    match t.get? target with
    | some r => if argc = r.argc then .call r.replacement argc else .call target argc
    | none => .call target argc
  | .pushFunction name =>
    match t.get? name with
    | some r => .pushFunction r.replacement
    | none => .pushFunction name
  | i => i

/-- Whether `r` redirects `function`, the least one that is redirected to no unit of an image. -/
def LeastDangling (t : Redirects) (image : Image) (function : String) (r : Redirect) : Prop :=
  t.get? function = some r ∧ image.unit? r.replacement = none ∧
    ∀ other s, t.get? other = some s → image.unit? s.replacement = none → ¬ other < function

theorem substitute_of_hits (h : t.get? function = some r) (hhits : r.Hits function i) :
    t.substitute i = r.apply function i := by
  rcases hhits with rfl | rfl <;> simp [substitute, h, Redirect.apply]

theorem substitute_of_spared (h : ∀ e ∈ t.entries, ¬ e.2.Hits e.1 i) : t.substitute i = i := by
  cases i with
  | call target argc =>
    rw [substitute]
    split
    · rename_i r hr
      have hargc : argc ≠ r.argc := by
        rintro rfl
        exact h _ (get?_eq_some_iff.mp hr) (.inl rfl)
      rw [if_neg hargc]
    · rfl
  | pushFunction name =>
    rw [substitute]
    split
    · rename_i r hr
      exact absurd (.inr rfl) (h _ (get?_eq_some_iff.mp hr))
    · rfl
  | _ => rfl

theorem not_hits_of_ne {e : String × Redirect} (h : i.reference? = some function)
    (hne : e.1 ≠ function) : ¬ e.2.Hits e.1 i := by
  intro hhits
  have href := hhits.reference
  rw [h, Option.some.injEq] at href
  exact hne href.symm

theorem not_hits_of_get?_eq_none (h : i.reference? = some function)
    (hnone : t.get? function = none) : ∀ e ∈ t.entries, ¬ e.2.Hits e.1 i := by
  intro e he
  refine not_hits_of_ne h fun heq ↦ ?_
  rw [← heq, get?_of_mem he] at hnone
  cases hnone

/-- An entry meets the instructions that it hits as they were, for only entries of other functions
stand before it. -/
theorem pass_of_hits {before : List (String × Redirect)} (after : List (String × Redirect))
    (hbefore : ∀ e ∈ before, e.1 < function) (hhits : r.Hits function i) :
    pass (before ++ (function, r) :: after) i = pass after (r.apply function i) ∧
      changes (before ++ (function, r) :: after) i = 1 + changes after (r.apply function i) := by
  have hspared : ∀ e ∈ before, ¬ e.2.Hits e.1 i := fun e he ↦
    not_hits_of_ne hhits.reference fun heq ↦ String.lt_irrefl function (heq ▸ hbefore e he)
  obtain ⟨hpass, hchanges⟩ := spared hspared
  rw [pass_append, changes_append, hpass, hchanges, Nat.zero_add, changes, if_pos hhits]
  exact ⟨rfl, rfl⟩

/-- An instruction that an entry hits goes on through the table only if the replacement comes after
the function. -/
theorem pass_of_get? (hr : t.get? function = some r) (hhits : r.Hits function i) :
    pass t.entries i = if function < r.replacement then pass t.entries (r.apply function i)
      else r.apply function i := by
  obtain ⟨before, after, hsplit, hbefore, hafter⟩ := exists_split hr
  have hpass : pass t.entries i = pass after (r.apply function i) := by
    rw [hsplit, (pass_of_hits after hbefore hhits).1]
  rw [hpass]
  split
  · rename_i hlt
    have hspared : ∀ e ∈ before ++ [(function, r)], ¬ e.2.Hits e.1 (r.apply function i) := by
      intro e he
      refine not_hits_of_ne hhits.apply_reference fun heq ↦ ?_
      rcases List.mem_append.mp he with he | he
      · exact String.lt_irrefl function (String.lt_trans hlt (heq ▸ hbefore e he))
      · exact String.lt_irrefl function (by rwa [← heq, List.mem_singleton.mp he] at hlt)
    rw [hsplit, List.append_cons, pass_append, (spared hspared).1]
  · rename_i hge
    refine (spared fun e he ↦ not_hits_of_ne hhits.apply_reference fun heq ↦ hge ?_).1
    exact heq ▸ hafter e he

section Apart

variable (hapart : ∀ function r, t.get? function = some r → t.get? r.replacement = none)

include hapart

theorem pass_eq_substitute (i : Instruction) : pass t.entries i = t.substitute i ∧
    changes t.entries i = (if i ≠ t.substitute i then 1 else 0) ∧
    changes t.entries (t.substitute i) = 0 := by
  by_cases h : ∃ e ∈ t.entries, e.2.Hits e.1 i
  · obtain ⟨⟨function, r⟩, hmem, hhits⟩ := h
    have hr : t.get? function = some r := get?_eq_some_iff.mpr hmem
    obtain ⟨before, after, hsplit, hbefore, -⟩ := exists_split hr
    -- Only this entry acts: those before it are for other functions, and none is for the replacement.
    obtain ⟨hpass, hchanges⟩ := pass_of_hits after hbefore hhits
    have hrest := not_hits_of_get?_eq_none hhits.apply_reference (hapart function r hr)
    have hafter : ∀ e ∈ after, ¬ e.2.Hits e.1 (r.apply function i) := fun e he ↦
      hrest e (by simp [hsplit, he])
    have hne : i ≠ r.apply function i := by
      intro heq
      have hsame := hhits.apply_reference
      rw [← heq, hhits.reference, Option.some.injEq] at hsame
      have hnone := hapart function r hr
      rw [← hsame, hr] at hnone
      cases hnone
    rw [substitute_of_hits hr hhits, if_pos hne, hsplit, hpass, hchanges, (spared hafter).1,
      (spared hafter).2, ← hsplit, (spared hrest).2]
    exact ⟨rfl, rfl, rfl⟩
  · have hspared : ∀ e ∈ t.entries, ¬ e.2.Hits e.1 i := fun e he hhits ↦ h ⟨e, he, hhits⟩
    obtain ⟨hpass, hchanges⟩ := spared hspared
    rw [substitute_of_spared hspared, hpass, hchanges, if_neg (fun hne ↦ hne rfl)]
    exact ⟨rfl, rfl, rfl⟩

end Apart

theorem leastDangling_of_dangling? {image : Image} (h : t.dangling? image = some (function, r)) :
    t.LeastDangling image function r := by
  obtain ⟨hdangling, before, after, hsplit, hbefore⟩ := List.find?_eq_some_iff_append.mp h
  have hmem : (function, r) ∈ t.entries := by simp [hsplit]
  refine ⟨get?_eq_some_iff.mpr hmem, by simpa using hdangling, fun other s hs hnone hlt ↦ ?_⟩
  have hother : (other, s) ∈ before ++ (function, r) :: after := hsplit ▸ get?_eq_some_iff.mp hs
  rcases List.mem_append.mp hother with hother | hother
  · have hfound := hbefore _ hother
    simp [hnone] at hfound
  · rcases List.mem_cons.mp hother with heq | hother
    · obtain ⟨rfl, -⟩ := Prod.mk.inj heq
      exact String.lt_irrefl other hlt
    · have hordered := t.ordered
      rw [hsplit, List.pairwise_append] at hordered
      have hgreater := (List.pairwise_cons.mp hordered.2.1).1 _ hother
      exact String.lt_irrefl other (String.lt_trans hlt hgreater)

theorem dangling?_eq_none_iff_get? {image : Image} : t.dangling? image = none ↔
    ∀ function r, t.get? function = some r → (image.unit? r.replacement).isSome := by
  simp only [dangling?_eq_none_iff, Image.isSome_unit?]
  constructor
  · intro h function r hr
    exact h _ (get?_eq_some_iff.mp hr)
  · intro h e he
    exact h e.1 e.2 (get?_of_mem he)

end Redirects

open Redirects

theorem sum_map_indicator {α : Type} (p : α → Prop) [DecidablePred p] (l : List α) :
    (l.map fun a ↦ if p a then 1 else 0).sum = l.countP p := by
  induction l with
  | nil => rfl
  | cons a l ih =>
    rw [List.map_cons, List.sum_cons, ih, List.countP_cons, Nat.add_comm]
    simp only [decide_eq_true_eq]

theorem Engine.applyRedirects_error {w w' : Workspace} {e : EditError}
    (h : applyRedirects w = .error e w') : w'.image = w.image := by
  rcases applyRedirects_cases w with ⟨n, heq⟩ | ⟨e', heq⟩ | ⟨n, image, -, heq⟩
  · rw [heq] at h; cases h
  · rw [heq] at h; cases h; rfl
  · rw [heq] at h; cases h

/-- Redirecting an image by a table of which no replacement is redirected itself. It fails just when
a replacement is no unit, and then names the least function with such a replacement. -/
theorem redirectImage_simultaneous {t : Redirects}
    (hapart : ∀ function r, t.get? function = some r → t.get? r.replacement = none) (image : Image) :
    ((∃ e, redirectImage t image = .error e) ↔
        ∃ function r, t.get? function = some r ∧ image.unit? r.replacement = none) ∧
      (∀ e, redirectImage t image = .error e → ∃ function r, t.LeastDangling image function r ∧
        e = .danglingRedirect function r.replacement) ∧
      (∀ session e w', session.redirects = t →
        Engine.applyRedirects { image, session } = .error e w' → w'.image = image) ∧
      ((∀ function r, t.get? function = some r → (image.unit? r.replacement).isSome) →
        let image' := image.redirectedBy t.substitute
        redirectImage t image = .ok (image.differences image', image') ∧
          redirectImage t image' = .ok (0, image')) := by
  have hsubstitute : pass t.entries = t.substitute :=
    funext fun i ↦ (pass_eq_substitute hapart i).1
  cases hdangling : t.dangling? image with
  | some e =>
    obtain ⟨function, r⟩ := e
    have herror := redirectImage_eq_error hdangling
    have hleast := leastDangling_of_dangling? hdangling
    refine ⟨⟨fun _ ↦ ⟨function, r, hleast.1, hleast.2.1⟩, fun _ ↦ ⟨_, herror⟩⟩, ?_, ?_, ?_⟩
    · intro e he
      rw [herror, Except.error.injEq] at he
      exact ⟨function, r, hleast, he.symm⟩
    · exact fun _ _ _ _ h ↦ Engine.applyRedirects_error h
    · intro hsome
      have hunit := hsome function r hleast.1
      simp [hleast.2.1] at hunit
  | none =>
    have hok := redirectImage_eq_ok hdangling
    have hsome := dangling?_eq_none_iff_get?.mp hdangling
    have hcount : (image.callSites.map (changes t.entries)).sum =
        image.differences (image.redirectedBy t.substitute) := by
      rw [Image.differences_redirectedBy, ← sum_map_indicator]
      exact congrArg List.sum (List.map_congr_left fun i _ ↦ (pass_eq_substitute hapart i).2.1)
    have hagain := (redirectImage_again hdangling).mpr fun i _ ↦ by
      rw [hsubstitute]
      exact (pass_eq_substitute hapart i).2.2
    rw [hcount, hsubstitute] at hok
    rw [hsubstitute] at hagain
    refine ⟨⟨?_, ?_⟩, ?_, ?_, fun _ ↦ ⟨hok, hagain⟩⟩
    · rintro ⟨e, he⟩
      rw [hok] at he
      cases he
    · rintro ⟨function, r, hr, hnone⟩
      have hunit := hsome function r hr
      simp [hnone] at hunit
    · intro e he
      rw [hok] at he
      cases he
    · exact fun _ _ _ _ h ↦ Engine.applyRedirects_error h

def aritiesImage : Image where
  units := [
    { name := "main", body := [.call "f" 1, .call "f" 2, .pushFunction "f"], children := ["part"] },
    { name := "part", body := [.call "f" 1], parent := some "main" },
    { name := "f", arity := 1 },
    { name := "__hook_f_hook_1", body := [.call "f" 1], arity := 1 }]

theorem aritiesImage_wellFormed : aritiesImage.WellFormed := by decide

def aritiesTable : Redirects :=
  Redirects.empty.insert "f" { replacement := "__hook_f_hook_1", argc := 1 }

theorem redirectImage_simultaneous_arities :
    (∀ function r, aritiesTable.get? function = some r → aritiesTable.get? r.replacement = none) ∧
      ∃ image', redirectImage aritiesTable aritiesImage = .ok (2, image') ∧
        image'.units.map (·.body) =
          [[.call "__hook_f_hook_1" 1, .call "f" 2, .pushFunction "__hook_f_hook_1"],
            [.call "f" 1], [], [.call "f" 1]] ∧
        redirectImage aritiesTable image' = .ok (0, image') := by
  have hget : ∀ function r, aritiesTable.get? function = some r →
      r.replacement = "__hook_f_hook_1" := by
    intro function r hr
    rw [aritiesTable, get?_insert] at hr
    split at hr
    · cases hr; rfl
    · cases hr
  have hapart : ∀ function r, aritiesTable.get? function = some r →
      aritiesTable.get? r.replacement = none := by
    intro function r hr
    rw [hget function r hr]
    decide
  obtain ⟨-, -, -, hok⟩ := redirectImage_simultaneous hapart aritiesImage
  obtain ⟨hfirst, hsecond⟩ := hok fun function r hr ↦ by
    rw [hget function r hr]
    decide
  refine ⟨hapart, _, ?_, ?_, hsecond⟩
  · rw [hfirst]
    decide
  · decide

end HookPatch
