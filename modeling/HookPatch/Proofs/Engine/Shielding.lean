import HookPatch.Proofs.Engine.HookRow
import HookPatch.Proofs.Engine.Recording
import HookPatch.Proofs.Engine.Simultaneous

namespace HookPatch

namespace Engine

variable {strictness : Assembly.Strictness} {w w' : Workspace} {u : CodeUnit}

theorem SparesAll.applyRedirects_notMem {name : String} {ops : List Operation}
    (h : SparesAll strictness name ops w) : .applyRedirects ∉ ops := by
  induction ops generalizing w with
  | nil => exact List.not_mem_nil
  | cons op ops ih =>
    intro hmem
    rcases List.mem_cons.mp hmem with rfl | hmem
    · exact h.1
    · exact ih h.2 hmem

/-- The innermost preserved unit of a hooked unit, and what the hooks have made of the unit itself. -/
theorem Run.innermost {image : Image} (hnodup : (image.units.map (·.name)).Nodup)
    (hu : u ∈ image.units) {ops : List Operation} (hrun : Run strictness ops { image } w)
    (hspares : SparesAll strictness u.name ops { image })
    (hhooked : ops.flatMap (·.hooksOf u.name) ≠ []) :
    (∃ p, w.session.hooks.innermost? u.name = some p.name ∧ w.image.unit? p.name = some p ∧
      isGenerated p.name ∧ p.body = u.body) ∧ ∃ top, w.image.unit? u.name = some top := by
  have hholds := hrun.holds hspares (fresh_holds hnodup hu)
  obtain ⟨top, ps, hstack, htop, hrow, hps⟩ := hholds.block
  have hunit : ∀ p ∈ top :: ps.reverse, w.image.unit? p.name = some p := fun p hp ↦
    (Image.unit?_eq_some_iff hholds.units_nodup).mpr ⟨hrow.mem hp, rfl⟩
  refine ⟨?_, top, htop ▸ hunit top List.mem_cons_self⟩
  cases ps with
  | nil => exact absurd (List.length_eq_zero_iff.mp (by simpa using hstack.length.symm)) hhooked
  | cons p ps =>
    have hcontent := hstack.first p rfl
    simp only [CodeUnit.content, Prod.mk.injEq] at hcontent
    have hchain : p.name ∈ w.session.hooks.chain u.name := by simp [hps]
    refine ⟨p, by rw [HookChains.innermost?, hps]; rfl, hunit p (by simp), ?_, hcontent.1⟩
    rcases (hrun.records hspares.applyRedirects_notMem).chain u.name p.name hchain with hp | hp
    · simp [HookChains.chain] at hp
    · exact hp

/-- A unit is soft hooked, and a function is hard hooked, before or after. The body that the unit had
at first keeps its calls of the function, in the innermost preserved unit. Only the unit itself has
none left, if it is neither a child nor generated. -/
theorem run_shields {image : Image} (hnodup : (image.units.map (·.name)).Nodup)
    (hu : u ∈ image.units) {ops : List Operation} (hrun : Run strictness ops { image } w)
    (hspares : SparesAll strictness u.name ops { image })
    (hhooked : ops.flatMap (·.hooksOf u.name) ≠ []) {function replacement : String} {argc : UInt16}
    (hhooks : recorded strictness ops { image } = [(function, { replacement, argc })]) :
    ∃ count w', applyRedirects w = .ok count w' ∧
      (∃ p, w'.session.hooks.innermost? u.name = some p.name ∧ w'.image.unit? p.name = some p ∧
        p.body = u.body) ∧
      ∃ top, w'.image.unit? u.name = some top ∧
        (top.parent = none → ¬ isGenerated u.name → ∀ i ∈ top.body,
          i ≠ .call function argc ∧ i ≠ .pushFunction function) := by
  have hanchored := hrun.anchored (anchored_of_empty rfl)
  have hredirects := (hrun.records hspares.applyRedirects_notMem).redirects
  rw [hhooks] at hredirects
  have hentries : w.session.redirects.entries = [(function, { replacement, argc })] := by
    rw [hredirects]
    rfl
  have hne : replacement ≠ function :=
    (hanchored (function, { replacement, argc }) (by simp [hentries])).2.2
  obtain ⟨count, hok⟩ := applyRedirects_of_anchored hanchored
  obtain ⟨⟨p, hinnermost, hp, hgenerated, hbody⟩, top, htop⟩ :=
    hrun.innermost hnodup hu hspares hhooked
  let g := Redirects.pass w.session.redirects.entries
  refine ⟨count, _, hok, ⟨p, hinnermost, ?_, hbody⟩, top.redirectedBy g, ?_, ?_⟩
  · rw [Image.unit?_redirectedBy_of_isGenerated g w.image hgenerated, hp]
  · rw [Image.unit?_redirectedBy, htop, Option.map_some]
  · intro hparent hname i hi
    obtain ⟨-, -, -, hsame, -⟩ := Image.exists_split htop
    have hred : (top.redirectedBy g).isRedirected := by
      refine CodeUnit.isRedirected_iff.mpr ⟨hparent, ?_⟩
      rwa [top.redirectedBy_name, hsame]
    rw [top.redirectedBy_isRedirected] at hred
    rw [CodeUnit.redirectedBy, if_pos hred] at hi
    obtain ⟨i, -, rfl⟩ := List.mem_map.mp hi
    have hg : g i = Redirect.apply function { replacement, argc } i := by
      simp only [g, hentries]
      rfl
    exact hg ▸ not_or.mp (Redirect.not_hits_apply hne i)

def callerHooks : List Operation :=
  [.softHook "main" "call f(argc=1)" "#orig#", .hardHook "f" "call #orig#(argc=1)" 1 "#orig#",
    .softHook "main" "call #orig#(argc=0)\ncall f(argc=1)" "#orig#"]

theorem run_shields_hooked_twice :
    ∃ w count w', Run .strict callerHooks { image := aritiesImage } w ∧
      applyRedirects w = .ok count w' ∧
      (∃ p, w'.session.hooks.innermost? "main" = some p.name ∧ w'.image.unit? p.name = some p ∧
        p.body = [.call "f" 1, .call "f" 2, .pushFunction "f"]) ∧
      ∃ top, w'.image.unit? "main" = some top ∧
        (top.parent = none → ¬ isGenerated "main" → ∀ i ∈ top.body,
          i ≠ .call "f" 1 ∧ i ≠ .pushFunction "f") := by
  let w := afterAll .strict callerHooks { image := aritiesImage }
  have hwf := fresh_wellFormed aritiesImage_wellFormed
  have hrun : Run .strict callerHooks { image := aritiesImage } w := run_afterAll hwf (by decide)
  have hmain : ({
      name := "main", body := [.call "f" 1, .call "f" 2, .pushFunction "f"],
      children := ["part"] } : CodeUnit) ∈ aritiesImage.units := by decide
  have hhooks : recorded .strict callerHooks { image := aritiesImage } =
      [("f", { replacement := "__hook_f_hook_2", argc := 1 })] := by decide +kernel
  obtain ⟨count, w', h⟩ := run_shields hwf.image.units_nodup hmain hrun (by decide +kernel)
    (by decide) hhooks
  exact ⟨w, count, w', hrun, h⟩

/-- The caller of `f` is a unit of its own, and both hooks succeed, but its call of `f` with one
argument and its reference to `f` are still there. -/
theorem run_original_not_redirected :
    ∃ w count w', Run .strict callerHooks { image := aritiesImage } w ∧
      SparesAll .strict "main" callerHooks { image := aritiesImage } ∧
      recorded .strict callerHooks { image := aritiesImage } =
        [("f", { replacement := "__hook_f_hook_2", argc := 1 })] ∧
      (aritiesImage.unit? "main").map (·.isRedirected) = some true ∧
      applyRedirects w = .ok count w' ∧
      w'.session.hooks.chain "main" = ["__hook_main_orig_1", "__hook_main_orig_3"] ∧
      (w'.image.unit? "__hook_main_orig_1").map (·.body) =
        some [.call "f" 1, .call "f" 2, .pushFunction "f"] := by
  have hwf := fresh_wellFormed aritiesImage_wellFormed
  have hrun : Run .strict callerHooks { image := aritiesImage } _ := run_afterAll hwf (by decide)
  obtain ⟨count, hok⟩ := applyRedirects_of_anchored (hrun.anchored (anchored_of_empty rfl))
  exact ⟨_, count, _, hrun, by decide +kernel, by decide +kernel, by decide, hok, by decide +kernel,
    by decide +kernel⟩

end Engine

end HookPatch
