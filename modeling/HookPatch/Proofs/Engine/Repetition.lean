import HookPatch.Proofs.Engine.Recording
import HookPatch.Proofs.Engine.Runs
import HookPatch.Proofs.Engine.Simultaneous

namespace HookPatch

namespace Redirects

variable {t : Redirects} {i : Instruction}

/-- Replacements that are redirected themselves come after the functions that they replace. -/
def Forward (t : Redirects) : Prop :=
  ∀ function r, t.get? function = some r → t.get? r.replacement ≠ none → function < r.replacement

def Settles (t : Redirects) : Prop :=
  ∀ image count image', redirectImage t image = .ok (count, image') →
    redirectImage t image' = .ok (0, image')

/-- No entry up to the one that acts next hits the instruction, whatever has acted on it before. -/
theorem Forward.not_hits_pass (h : t.Forward) {before after : List (String × Redirect)}
    (hsplit : t.entries = before ++ after) (hspared : ∀ e ∈ before, ¬ e.2.Hits e.1 i) :
    ∀ e ∈ t.entries, ¬ e.2.Hits e.1 (pass after i) := by
  induction after generalizing before i with
  | nil =>
    rw [List.append_nil] at hsplit
    rw [hsplit]
    exact hspared
  | cons entry after ih =>
    obtain ⟨function, r⟩ := entry
    rw [pass_cons]
    have hnext : t.entries = (before ++ [(function, r)]) ++ after := by simp [hsplit]
    refine ih hnext fun e he ↦ ?_
    by_cases hhits : r.Hits function i
    · -- The instruction refers to the replacement now. An entry for that stands further on.
      intro hagain
      have hkey : e.1 = r.replacement :=
        (Option.some.inj (hhits.apply_reference.symm.trans hagain.reference)).symm
      have hmem : e ∈ t.entries := by
        rcases List.mem_append.mp he with he | he
        · simp [hsplit, he]
        · simp [hsplit, List.mem_singleton.mp he]
      have hr : t.get? function = some r := get?_eq_some_iff.mpr (by simp [hsplit])
      have hlt : function < e.1 := by
        rw [hkey]
        refine h function r hr ?_
        rw [← hkey, get?_of_mem hmem]
        exact Option.some_ne_none e.2
      rcases List.mem_append.mp he with he | he
      · have hordered := t.ordered
        rw [hsplit, List.pairwise_append] at hordered
        have hgt := hordered.2.2 e he (function, r) List.mem_cons_self
        exact String.lt_irrefl function (String.lt_trans hlt hgt)
      · rw [List.mem_singleton.mp he] at hlt
        exact String.lt_irrefl function hlt
    · change ¬ e.2.Hits e.1 (r.apply function i)
      rw [r.apply_of_not_hits hhits]
      rcases List.mem_append.mp he with he | he
      · exact hspared e he
      · rw [List.mem_singleton.mp he]
        exact hhits

def referring (t : Redirects) (function : String) : Image where
  units := { name := "", body := [.pushFunction function] } ::
    t.entries.map fun e ↦ { name := e.2.replacement }

theorem dangling?_referring (t : Redirects) (function : String) :
    t.dangling? (t.referring function) = none := by
  refine dangling?_eq_none_iff.mpr fun e he ↦ List.mem_map.mpr ?_
  exact ⟨{ name := e.2.replacement }, List.mem_cons_of_mem _ (List.mem_map_of_mem he), rfl⟩

theorem mem_callSites_referring (t : Redirects) (function : String) :
    .pushFunction function ∈ (t.referring function).callSites := by
  have hred : ({ name := "", body := [.pushFunction function] } : CodeUnit).isRedirected := rfl
  rw [Image.callSites, referring, List.filter_cons_of_pos hred]
  simp

theorem settles_iff : t.Settles ↔ t.Forward := by
  constructor
  · intro hsettles function r hr hnext
    by_contra hnot
    -- A reference to `function` is left as one to the replacement, which the next pass redirects.
    have hpass : pass t.entries (.pushFunction function) =
        r.apply function (.pushFunction function) := by
      rw [pass_of_get? hr (.inr rfl), if_neg hnot]
    have hdangling := t.dangling?_referring function
    have hagain := (redirectImage_again hdangling).mp
      (hsettles _ _ _ (redirectImage_eq_ok hdangling)) _ (t.mem_callSites_referring function)
    rw [hpass] at hagain
    obtain ⟨s, hs⟩ := Option.ne_none_iff_exists'.mp hnext
    refine changes_eq_zero_iff.mp hagain _ (get?_eq_some_iff.mp hs) (.inr ?_)
    simp [Redirect.apply]
  · intro hforward image count image' hok
    cases hdangling : t.dangling? image with
    | some e =>
      rw [redirectImage_eq_error hdangling] at hok
      cases hok
    | none =>
      obtain ⟨rfl, rfl⟩ := Prod.mk.inj (Except.ok.inj ((redirectImage_eq_ok hdangling).symm.trans hok))
      refine (redirectImage_again hdangling).mpr fun i _ ↦ changes_eq_zero_iff.mpr ?_
      exact hforward.not_hits_pass (List.nil_append _).symm (by simp)

end Redirects

namespace Engine

variable {strictness : Assembly.Strictness} {w : Workspace}

/-- The redirections that a run leaves pending can be applied. Applying them to any image a second time
changes nothing, unless the unit of a pending hard hook is hard hooked itself and comes before the
function that it replaces. -/
theorem run_settles_iff {image : Image} {ops : List Operation}
    (hrun : Run strictness ops { image } w) :
    (∃ count image', redirectImage w.session.redirects w.image = .ok (count, image')) ∧
      (w.session.redirects.Settles ↔ ¬ ∃ function r s, w.session.redirects.get? function = some r ∧
        w.session.redirects.get? r.replacement = some s ∧ r.replacement < function) := by
  have hanchored := hrun.anchored (anchored_of_empty rfl)
  refine ⟨⟨_, _, redirectImage_eq_ok hanchored.dangling?⟩, Redirects.settles_iff.trans ?_⟩
  constructor
  · rintro hforward ⟨function, r, s, hr, hs, hlt⟩
    have hgt := hforward function r hr (by rw [hs]; exact Option.some_ne_none s)
    exact String.lt_irrefl function (String.lt_trans hgt hlt)
  · intro hnone function r hr hnext
    obtain ⟨s, hs⟩ := Option.ne_none_iff_exists'.mp hnext
    have hne : r.replacement ≠ function := (hanchored _ (Redirects.get?_eq_some_iff.mp hr)).2.2
    have hnot : ¬ r.replacement < function := fun hlt ↦ hnone ⟨function, r, s, hr, hs, hlt⟩
    by_contra hge
    exact hne (String.le_antisymm (String.not_lt.mp hge) (String.not_lt.mp hnot))

def onwardHooks : List Operation :=
  [.defineFunction "F" "ret" 0, .hardHook "F" "ret" 0 "#orig#",
    .hardHook "__hook_F_hook_1" "ret" 0 "#orig#"]

theorem run_settles_iff_onward :
    ∃ w, Run .strict onwardHooks { image := aritiesImage } w ∧
      w.session.redirects.get? "F" = some { replacement := "__hook_F_hook_1", argc := 0 } ∧
      (w.session.redirects.get? "__hook_F_hook_1").isSome ∧ w.session.redirects.Settles := by
  let w := afterAll .strict onwardHooks { image := aritiesImage }
  have hrun : Run .strict onwardHooks { image := aritiesImage } w :=
    run_afterAll (fresh_wellFormed aritiesImage_wellFormed) (by decide)
  have hforward : ∀ e ∈ w.session.redirects.entries, ∀ e' ∈ w.session.redirects.entries,
      e'.1 = e.2.replacement → ¬ e.2.replacement < e.1 := by decide +kernel
  refine ⟨w, hrun, by decide +kernel, by decide +kernel, (run_settles_iff hrun).2.mpr ?_⟩
  rintro ⟨function, r, s, hr, hs, hlt⟩
  exact hforward _ (Redirects.get?_eq_some_iff.mp hr) _ (Redirects.get?_eq_some_iff.mp hs) rfl hlt

def backwardHooks : List Operation :=
  [.hardHook "f" "ret" 1 "#orig#", .hardHook "__hook_f_hook_2" "ret" 1 "#orig#"]

/-- The first pass goes from `f` to its hook, and only the second one to the hook of the hook. -/
theorem run_not_settled :
    ∃ w image' image'', Run .strict backwardHooks { image := aritiesImage } w ∧
      redirectImage w.session.redirects w.image = .ok (2, image') ∧
      redirectImage w.session.redirects image' = .ok (2, image'') ∧
      image''.units.map (·.body) ≠ image'.units.map (·.body) := by
  let w := afterAll .strict backwardHooks { image := aritiesImage }
  let g := Redirects.pass w.session.redirects.entries
  have hrun : Run .strict backwardHooks { image := aritiesImage } w :=
    run_afterAll (fresh_wellFormed aritiesImage_wellFormed) (by decide)
  have hdangling := (hrun.anchored (anchored_of_empty rfl)).dangling?
  refine ⟨w, w.image.redirectedBy g, (w.image.redirectedBy g).redirectedBy g, hrun, ?_, ?_, ?_⟩
  · rw [redirectImage_eq_ok hdangling]
    decide +kernel
  · rw [redirectImage_eq_ok ((dangling?_redirectedBy _ g w.image).trans hdangling)]
    decide +kernel
  · decide +kernel

end Engine

end HookPatch
