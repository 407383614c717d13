import HookPatch.Proofs.Engine.Recording
import HookPatch.Proofs.Engine.Runs
import HookPatch.Proofs.Engine.Simultaneous

namespace HookPatch

namespace Redirects

variable {t : Redirects} {function : String} {r : Redirect}

theorem pass_call_of_ne (hr : t.get? function = some r) {argc : UInt16} (hne : argc ≠ r.argc) :
    pass t.entries (.call function argc) = .call function argc := by
  refine (spared fun e he hhits ↦ ?_).1
  have hkey : function = e.1 := Option.some.inj hhits.reference
  rw [hkey, get?_of_mem he, Option.some.injEq] at hr
  subst hr
  rcases hhits with hcall | hreference
  · rw [Instruction.call.injEq] at hcall
    exact hne hcall.2
  · cases hreference

theorem pass_call (hr : t.get? function = some r) :
    pass t.entries (.call function r.argc) = if function < r.replacement
      then pass t.entries (.call r.replacement r.argc) else .call r.replacement r.argc := by
  have happly : r.apply function (.call function r.argc) = .call r.replacement r.argc := if_pos rfl
  rw [pass_of_get? hr (.inl rfl), happly]

theorem pass_call_of_forall_ne {argc : UInt16} (h : ∀ r, t.get? function = some r → r.argc ≠ argc) :
    pass t.entries (.call function argc) = .call function argc := by
  cases hr : t.get? function with
  | none => exact (spared (not_hits_of_get?_eq_none rfl hr)).1
  | some r => exact pass_call_of_ne hr (Ne.symm (h r hr))

end Redirects

namespace Engine

variable {strictness : Assembly.Strictness} {w₀ w : Workspace}

/-- Two hard hooks of one function for different numbers of arguments. Only the second counts: calls
with the number of the first stay as they are. The others call the unit of the second, or go on from
it if it comes after the function and calls of it are redirected too. -/
theorem run_lastHook {ops : List Operation} {function first second : String} {m n : UInt16}
    (hfresh : w₀.session.redirects = .empty) (hrun : Run strictness ops w₀ w)
    (hops : .applyRedirects ∉ ops) (hne : m ≠ n)
    (hhooks : (recorded strictness ops w₀).filter (·.1 = function) =
      [(function, { replacement := first, argc := m }),
        (function, { replacement := second, argc := n })]) :
    let beyond := Redirects.pass w.session.redirects.entries (.call second n)
    (∃ count w', applyRedirects w = .ok count w' ∧ ∀ (k : Nat) (u : CodeUnit),
      w.image.units[k]? = some u → u.parent = none → ¬ isGenerated u.name →
        ∃ u', w'.image.units[k]? = some u' ∧ u'.name = u.name ∧ ∀ j : Nat,
          (u.body[j]? = some (.call function m) → u'.body[j]? = some (.call function m)) ∧
          (u.body[j]? = some (.call function n) →
            u'.body[j]? = some (if function < second then beyond else .call second n))) ∧
      ((∀ r, w.session.redirects.get? second = some r → r.argc ≠ n) →
        beyond = .call second n) := by
  intro beyond
  have hpending : w.session.redirects.get? function =
      some { replacement := second, argc := n } := by
    rw [(hrun.records hops).redirects, Redirects.get?_insertAll, hhooks]
    rfl
  obtain ⟨count, hok⟩ := applyRedirects_of_anchored (hrun.anchored (anchored_of_empty hfresh))
  refine ⟨⟨count, _, hok, fun k u hu hparent hname ↦ ?_⟩, Redirects.pass_call_of_forall_ne⟩
  let g := Redirects.pass w.session.redirects.entries
  have hbody := CodeUnit.getElem?_redirectedBy g (CodeUnit.isRedirected_iff.mpr ⟨hparent, hname⟩)
  have hu' : (w.image.redirectedBy g).units[k]? = some (u.redirectedBy g) := by
    rw [Image.redirectedBy, List.getElem?_map, hu]
    rfl
  refine ⟨_, hu', u.redirectedBy_name g, fun j ↦ ⟨fun hcall ↦ ?_, fun hcall ↦ ?_⟩⟩
  · rw [hbody, hcall, Option.map_some]
    exact congrArg some (Redirects.pass_call_of_ne hpending hne)
  · rw [hbody, hcall, Option.map_some]
    exact congrArg some (Redirects.pass_call hpending)

def arityHooks : List Operation :=
  [.hardHook "f" "ret" 2 "#orig#", .defineFunction "late" "call f(argc=1)" 0,
    .hardHook "f" "ret" 1 "#orig#"]

theorem run_lastHook_one_argument :
    ∃ w count w', Run .strict arityHooks { image := aritiesImage } w ∧
      applyRedirects w = .ok count w' ∧
      (∃ main, w'.image.units[0]? = some main ∧ main.body[0]? = some (.call "__hook_f_hook_3" 1) ∧
        main.body[1]? = some (.call "f" 2)) ∧
      ∃ late, w'.image.units[5]? = some late ∧ late.body[0]? = some (.call "__hook_f_hook_3" 1) := by
  let w := afterAll .strict arityHooks { image := aritiesImage }
  have hwf := fresh_wellFormed aritiesImage_wellFormed
  have hrun : Run .strict arityHooks { image := aritiesImage } w := run_afterAll hwf (by decide)
  have hhooks : (recorded .strict arityHooks { image := aritiesImage }).filter (·.1 = "f") =
      [("f", { replacement := "__hook_f_hook_2", argc := 2 }),
        ("f", { replacement := "__hook_f_hook_3", argc := 1 })] := by decide +kernel
  obtain ⟨⟨count, w', hok, hcalls⟩, -⟩ :=
    run_lastHook rfl hrun (by simp [arityHooks]) (by decide) hhooks
  rw [if_neg (by decide)] at hcalls
  have hmain : w.image.units[0]? = some {
      name := "main", body := [.call "f" 1, .call "f" 2, .pushFunction "f"],
      children := ["part"] } := by decide +kernel
  have hlate : w.image.units[5]? = some { name := "late", body := [.call "f" 1] } := by
    decide +kernel
  obtain ⟨main, hmain', -, hmainCalls⟩ := hcalls 0 _ hmain rfl (by decide)
  obtain ⟨late, hlate', -, hlateCalls⟩ := hcalls 5 _ hlate rfl (by decide)
  exact ⟨w, count, w', hrun, hok, ⟨main, hmain', (hmainCalls 0).2 rfl, (hmainCalls 1).1 rfl⟩,
    late, hlate', (hlateCalls 0).2 rfl⟩

/-- The calls of `f` with one argument, for which the first hook is, reach none of the hooks. -/
theorem run_firstHook_lost :
    ∃ w count w', Run .strict [.hardHook "f" "ret" 1 "#orig#", .hardHook "f" "ret" 2 "#orig#"]
        { image := aritiesImage } w ∧
      recorded .strict [.hardHook "f" "ret" 1 "#orig#", .hardHook "f" "ret" 2 "#orig#"]
          { image := aritiesImage } =
        [("f", { replacement := "__hook_f_hook_2", argc := 1 }),
          ("f", { replacement := "__hook_f_hook_3", argc := 2 })] ∧
      applyRedirects w = .ok count w' ∧
      (w.image.unit? "main").map (·.body) =
        some [.call "f" 1, .call "f" 2, .pushFunction "f"] ∧
      (w'.image.unit? "main").map (·.body) =
        some [.call "f" 1, .call "__hook_f_hook_3" 2, .pushFunction "__hook_f_hook_3"] := by
  let ops : List Operation :=
    [.hardHook "f" "ret" 1 "#orig#", .hardHook "f" "ret" 2 "#orig#"]
  have hwf := fresh_wellFormed aritiesImage_wellFormed
  have hrun : Run .strict ops { image := aritiesImage } _ := run_afterAll hwf (by decide)
  obtain ⟨count, hok⟩ := applyRedirects_of_anchored (hrun.anchored (anchored_of_empty rfl))
  exact ⟨_, count, _, hrun, by decide +kernel, hok, by decide +kernel, by decide +kernel⟩

end Engine

end HookPatch
