import HookPatch.Proofs.Engine.BadSource

namespace HookPatch

open Assembly

namespace Engine

/-- How a hard hook of `function` is refused, and what that leaves. The name that was generated for a
hook with bad source is not generated again. -/
inductive HardHookRefused (w : Workspace) (function : String) : EditError → Workspace → Prop
  | unknown : HardHookRefused w function (.unknownName function) w
  | badSource {name : String} {names : GeneratedNames} (cause : SourceError) :
      w.session.names.next w.image function "hook" = (name, names) →
      HardHookRefused w function (.badSource name cause)
        { w with session := { w.session with names } }

variable {strictness : Strictness} {w w' : Workspace} {e : EditError}

theorem hardHook_refused {function source placeholder : String} {argc : UInt16}
    (h : hardHook strictness function source argc placeholder w = .error e w') :
    HardHookRefused w function e w' := by
  simp only [hardHook] at h
  split at h
  · split at h
    · rename_i e' hsource
      cases h
      obtain ⟨cause, rfl⟩ := eq_badSource_of_assembleFor hsource
      exact .badSource cause rfl
    · cases h
  · cases h
    exact .unknown

theorem arityHook_refused {function source placeholder : String}
    (h : arityHook strictness function source placeholder w = .error e w') :
    HardHookRefused w function e w' := by
  rcases arityHook_cases strictness w function source placeholder with ⟨-, heq⟩ | ⟨argc, -, heq⟩
  · rw [heq] at h
    cases h
    exact .unknown
  · exact hardHook_refused (heq.symm.trans h)

theorem defineFunction_refused {name source : String} {argc : UInt16}
    (h : defineFunction strictness name source argc w = .error e w') : w' = w ∧
      (e = .nameTaken name ∧ name ∈ w.image.names ∨ ∃ cause, e = .badSource name cause) := by
  simp only [defineFunction] at h
  split at h
  · rename_i htaken
    cases h
    exact ⟨rfl, .inl ⟨rfl, Image.hasName_iff.mp htaken⟩⟩
  · split at h
    · rename_i hsource
      cases h
      exact ⟨rfl, .inr (eq_badSource_of_assembleFor hsource)⟩
    · cases h

theorem editInnermost_refused {α : Type} {name : String} {edit : Cursor → α × Cursor}
    (h : editInnermost name edit w = .error e w') : w' = w := by
  rcases editInnermost_cases w name edit with heq | ⟨target, u, -, -, heq⟩
  · rw [heq] at h
    cases h
    rfl
  · rw [heq] at h
    cases h

theorem addSelector_refused {library : String} (h : Export.addSelector library w = .error e w') :
    w' = w := by
  rcases addSelector_cases w library with heq | ⟨extension, function, ids, -, -, -, heq⟩
  · rw [heq] at h
    cases h
    rfl
  · rw [heq] at h
    cases h

theorem applyRedirects_refused (h : applyRedirects w = .error e w') :
    w' = { w with session := { w.session with redirects := .empty } } ∧
      ∃ function r, w.session.redirects.get? function = some r ∧
        w.image.unit? r.replacement = none ∧ e = .danglingRedirect function r.replacement := by
  simp only [applyRedirects, redirectImage] at h
  split at h
  · cases h
  · cases hdangling : w.session.redirects.dangling? w.image with
    | none =>
      rw [hdangling] at h
      cases h
    | some entry =>
      rw [hdangling] at h
      cases h
      have hget := Redirects.get?_of_mem (List.mem_of_find?_eq_some hdangling)
      have hunit := List.find?_some hdangling
      exact ⟨rfl, entry.1, entry.2, hget, Option.isNone_iff_eq_none.mp hunit, rfl⟩

/-- What refused edits leave, all but soft hooks and exports. No edit has touched the image, the hook
chains or the ids. Only hard hooks count a name, if their source is bad, and only applying the pending
redirections uses them up. -/
theorem refused_edits (strictness : Strictness) (w : Workspace) :
    (∀ function source argc placeholder e w',
        hardHook strictness function source argc placeholder w = .error e w' →
        HardHookRefused w function e w') ∧
      (∀ function source placeholder e w',
        arityHook strictness function source placeholder w = .error e w' →
        HardHookRefused w function e w') ∧
      (∀ name source argc e w', defineFunction strictness name source argc w = .error e w' →
        w' = w) ∧
      (∀ (α : Type) name (edit : Cursor → α × Cursor) e w',
        editInnermost name edit w = .error e w' → w' = w) ∧
      (∀ library e w', Export.addSelector library w = .error e w' → w' = w) ∧
      ∀ e w', applyRedirects w = .error e w' →
        w' = { w with session := { w.session with redirects := .empty } } ∧
          ∃ function r, w.session.redirects.get? function = some r ∧
            w.image.unit? r.replacement = none ∧ e = .danglingRedirect function r.replacement :=
  ⟨fun _ _ _ _ _ _ ↦ hardHook_refused, fun _ _ _ _ _ ↦ arityHook_refused,
    fun _ _ _ _ _ h ↦ (defineFunction_refused h).1, fun _ _ _ _ _ ↦ editInnermost_refused,
    fun _ _ _ ↦ addSelector_refused, fun _ _ ↦ applyRedirects_refused⟩

def danglingWork : Workspace where
  image := oneImage
  session := { redirects := Redirects.empty.insert "main" { replacement := "gone", argc := 0 } }

theorem refused_edits_dangling :
    (∃ e w', hardHook .strict "main" "call" 0 "#orig#" danglingWork = .error e w' ∧
        HardHookRefused danglingWork "main" e w') ∧
      ∃ e w', applyRedirects danglingWork = .error e w' ∧ w' = { image := oneImage } ∧
        ∃ r, danglingWork.session.redirects.get? "main" = some r ∧
          e = .danglingRedirect "main" r.replacement := by
  obtain ⟨hhook, -, -, -, -, hredirects⟩ := refused_edits .strict danglingWork
  obtain ⟨e₁, w₁, h₁⟩ : ∃ e w', hardHook .strict "main" "call" 0 "#orig#" danglingWork =
    .error e w' := not_succeeds_iff.mp (by decide +kernel)
  obtain ⟨e₂, w₂, h₂⟩ : ∃ e w', applyRedirects danglingWork = .error e w' :=
    not_succeeds_iff.mp (by decide +kernel)
  obtain ⟨hdrained, function, r, hget, -, rfl⟩ := hredirects e₂ w₂ h₂
  obtain rfl : function = "main" := by
    rcases Redirects.mem_insert (Redirects.get?_eq_some_iff.mp hget) with heq | hmem
    · exact congrArg Prod.fst heq
    · cases hmem
  exact ⟨⟨e₁, w₁, h₁, hhook _ _ _ _ _ _ h₁⟩, _, w₂, h₂, hdrained, r, hget, rfl⟩

end Engine

end HookPatch
