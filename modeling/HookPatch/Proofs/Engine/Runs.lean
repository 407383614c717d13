import HookPatch.Proofs.Engine.WellFormed
import Mathlib.Order.Nat

namespace HookPatch

open GeneratedNames

namespace Image

variable {image image' : Image}

theorem namesTaken_of_outline
    (houtline : image'.units.map CodeUnit.outline = image.units.map CodeUnit.outline)
    (hfunctions : image'.functions = image.functions)
    (hextensions : image'.extensions = image.extensions) : namesTaken image' = namesTaken image := by
  have hlength := congrArg List.length houtline
  rw [List.length_map, List.length_map] at hlength
  rw [namesTaken, namesTaken, nativeFunctions, nativeFunctions, hlength, hfunctions, hextensions]

theorem namesTaken_define {name : String} (hname : name ∉ image.names) (argc : UInt16)
    (body : List Instruction) : namesTaken (image.define name argc body) = namesTaken image + 2 := by
  rw [namesTaken, namesTaken, nativeFunctions, define_extensions, define_units,
    define_functions hname, List.length_append, List.length_append, ← nativeFunctions]
  simp only [List.length_singleton]
  omega

theorem namesTaken_moveBody {l₁ l₂ : List CodeUnit} {u : CodeUnit} {name : String}
    (hunits : image.units = l₁ ++ u :: l₂) (hnodup : (image.units.map (·.name)).Nodup)
    (hname : name ∉ image.names) :
    namesTaken (image.moveBody l₁.length u name) = namesTaken image + 2 := by
  have hlength : (image.moveBody l₁.length u name).units.length = image.units.length + 1 := by
    simpa using (moveBody_names hunits hnodup).length_eq
  rw [namesTaken, namesTaken, nativeFunctions, moveBody_extensions, moveBody_functions hname,
    hlength, List.length_append, ← nativeFunctions]
  simp only [List.length_singleton]
  omega

theorem namesTaken_addNative {f : NativeFunction} (hunits : image'.units = image.units)
    (hfunctions : image'.functions = image.functions)
    (hnatives : image'.nativeFunctions.Perm (f :: image.nativeFunctions)) :
    namesTaken image' = namesTaken image + 1 := by
  rw [namesTaken, namesTaken, hunits, hfunctions, hnatives.length_eq, List.length_cons]
  omega

end Image

namespace Engine

open Assembly

variable {strictness : Strictness} {w : Workspace}

theorem softHook_namesTaken (h : w.WellFormed) {code source placeholder : String}
    (hspare : (w.image.unit? code).isSome → w.image.HasSpareName code "orig") :
    namesTaken (stateAfter (softHook strictness code source placeholder) w).image ≤
      namesTaken w.image + 2 := by
  rcases softHook_cases strictness w code source placeholder with
    ⟨-, heq⟩ | ⟨l₁, u, l₂, preserved, moved, hu, rfl, hunits, hmove, hresult⟩
  · rw [stateAfter_error heq]; omega
  obtain ⟨names, hnext, rfl⟩ := Workspace.preserve_eq hmove
  have hname := w.session.names.next_fresh (hspare (hu ▸ rfl))
  rw [hnext] at hname
  have hmoved := Image.namesTaken_moveBody hunits h.image.units_nodup hname
  rcases hresult with ⟨e, -, heq⟩ | ⟨body, -, heq⟩
  · rw [stateAfter_error heq]; exact hmoved.le
  · rw [stateAfter_ok heq, ← hmoved]
    exact (Image.namesTaken_of_outline (Image.setBody_outline _ _) rfl rfl).le

theorem hardHook_namesTaken {function source : String} {argc : UInt16} {placeholder : String}
    (hspare : w.image.isCallable function → w.image.HasSpareName function "hook") :
    namesTaken (stateAfter (hardHook strictness function source argc placeholder) w).image ≤
      namesTaken w.image + 2 := by
  rcases hardHook_cases strictness w function source argc placeholder with
    ⟨-, heq⟩ | ⟨name, names, hcall, hnext, ⟨e, heq⟩ | ⟨body, -, heq⟩⟩
  · rw [stateAfter_error heq]; omega
  · rw [stateAfter_error heq]; exact Nat.le_add_right _ 2
  · have hname := w.session.names.next_fresh (hspare hcall)
    rw [hnext] at hname
    rw [stateAfter_ok heq]
    exact (Image.namesTaken_define hname argc body).le

theorem defineFunction_namesTaken {name source : String} {argc : UInt16} :
    namesTaken (stateAfter (defineFunction strictness name source argc) w).image ≤
      namesTaken w.image + 2 := by
  rcases defineFunction_cases strictness w name source argc with
    ⟨e, heq⟩ | ⟨body, hname, -, heq⟩
  · rw [stateAfter_error heq]; omega
  · rw [stateAfter_ok heq]
    exact (Image.namesTaken_define hname argc body).le

theorem after_namesTaken (h : w.WellFormed) {op : Operation} (hreturns : op.Returns w) :
    namesTaken (op.after strictness w).image ≤ namesTaken w.image + 3 := by
  cases op with
  | softHook => exact (softHook_namesTaken h hreturns).trans (Nat.le_succ _)
  | hardHook => exact (hardHook_namesTaken hreturns).trans (Nat.le_succ _)
  | arityHook function source placeholder =>
    rcases arityHook_cases strictness w function source placeholder with
      ⟨-, heq⟩ | ⟨argc, hargc, heq⟩
    · rw [Operation.after, stateAfter_error heq]; omega
    · rw [Operation.after, stateAfter_congr heq]
      exact (hardHook_namesTaken (hreturns (hargc ▸ rfl))).trans (Nat.le_succ _)
  | editInnermost name edit =>
    rcases editInnermost_cases w name fun c ↦ ((), edit c) with heq | ⟨target, u, -, -, heq⟩
    · rw [Operation.after, stateAfter_error heq]; omega
    · rw [Operation.after, stateAfter_ok heq]
      have hnames := Image.namesTaken_of_outline (Image.modifyUnit_outline w.image target
        (edit { code := u.body }).code) rfl rfl
      exact hnames.le.trans (Nat.le_add_right _ 3)
  | defineFunction => exact defineFunction_namesTaken.trans (Nat.le_succ _)
  | addSelector library =>
    rcases addSelector_cases w library with heq | ⟨extension, f, ids, -, hfs, -, heq⟩
    · rw [Operation.after, stateAfter_error heq]; omega
    · rw [Operation.after, stateAfter_ok heq]
      simp only [namesTaken, Image.nativeFunctions, Image.addExtension, List.flatMap_append,
        List.flatMap_singleton, hfs, List.length_append, List.length_singleton]
      omega
  | registerExport x modId =>
    rcases register_cases strictness w x modId with
      ⟨e, ids, heq⟩ | ⟨f, image, ids, -, -, hadd, heq⟩
    · rw [Operation.after, stateAfter_error heq]; exact Nat.le_add_right _ 3
    · obtain ⟨hunits, hfunctions, hnatives⟩ := Export.addNative_spec hadd
      rw [Operation.after, stateAfter_congr heq]
      refine defineFunction_namesTaken.trans ?_
      rw [Image.namesTaken_addNative hunits hfunctions hnatives]
  | applyRedirects =>
    rcases applyRedirects_cases w with ⟨n, heq⟩ | ⟨e, heq⟩ | ⟨n, image, himage, heq⟩
    · rw [Operation.after, stateAfter_ok heq]; exact Nat.le_add_right _ 3
    · rw [Operation.after, stateAfter_error heq]; exact Nat.le_add_right _ 3
    · obtain ⟨houtline, hfunctions, hextensions⟩ := redirectImage_spec himage
      rw [Operation.after, stateAfter_ok heq]
      have hnames := Image.namesTaken_of_outline houtline hfunctions hextensions
      exact hnames.le.trans (Nat.le_add_right _ 3)

theorem Operation.returns_of_lt (h : namesTaken w.image < UInt32.size) (op : Operation) :
    op.Returns w := by
  cases op with
  | softHook => exact fun _ ↦ hasSpareName_of_lt h _ _
  | hardHook => exact fun _ ↦ hasSpareName_of_lt h _ _
  | arityHook => exact fun _ _ ↦ hasSpareName_of_lt h _ _
  | _ => trivial

/-- Every run comes back that the image has room for. -/
theorem exists_run (h : w.WellFormed) {ops : List Operation}
    (hroom : namesTaken w.image + 3 * ops.length ≤ UInt32.size) : ∃ w', Run strictness ops w w' := by
  induction ops generalizing w with
  | nil => exact ⟨w, .nil w⟩
  | cons op ops ih =>
    rw [List.length_cons] at hroom
    have hreturns : op.Returns w := op.returns_of_lt (by omega)
    have hnames : namesTaken (op.after strictness w).image ≤ _ := after_namesTaken h hreturns
    have hafter : (op.after strictness w).WellFormed := after_wellFormed h hreturns
    obtain ⟨w', hrun⟩ := ih hafter (by omega)
    exact ⟨w', .cons hreturns hrun⟩

def afterAll (strictness : Strictness) (ops : List Operation) (w : Workspace) : Workspace :=
  ops.foldl (fun w op ↦ op.after strictness w) w

theorem Run.eq_afterAll {ops : List Operation} {w' : Workspace} (hrun : Run strictness ops w w') :
    w' = afterAll strictness ops w := by
  induction hrun with
  | nil => rfl
  | cons _ _ ih => exact ih

theorem run_afterAll (h : w.WellFormed) {ops : List Operation}
    (hroom : namesTaken w.image + 3 * ops.length ≤ UInt32.size) :
    Run strictness ops w (afterAll strictness ops w) := by
  obtain ⟨w', hrun⟩ := exists_run h hroom
  exact hrun.eq_afterAll ▸ hrun

theorem Run.wellFormed {ops : List Operation} {w' : Workspace} (hrun : Run strictness ops w w')
    (h : w.WellFormed) : w'.WellFormed := by
  induction hrun with
  | nil => exact h
  | cons hreturns _ ih => exact ih (after_wellFormed h hreturns)

theorem fresh_wellFormed {image : Image} (h : image.WellFormed) :
    Workspace.WellFormed { image } where
  image := h
  preserved p hp := by simp [HookChains.preserved] at hp
  preserved_nodup := by simp [HookChains.preserved]
  redirects e he := by simp at he

/-- A session keeps an image well formed, its preserved bodies in declared units of their own, and
its pending redirections between existing callables. -/
theorem run_wellFormed {image : Image} (h : image.WellFormed) {ops : List Operation}
    (hrun : Run strictness ops { image } w) : w.WellFormed :=
  hrun.wellFormed (fresh_wellFormed h)

def linkedImage : Image where
  units := [{ name := "main", children := ["part"] }, { name := "part", parent := some "main" }]
  functions := [⟨"main", some "main"⟩]

/-- The second hook has bad source, but has moved the body of its unit all the same. -/
theorem run_wellFormed_linked :
    ∃ w, Run .strict [.softHook "main" "call #orig#(argc=0)" "#orig#",
        .softHook "main" "call" "#orig#", .hardHook "main" "ret" 0 "#orig#"]
        { image := linkedImage } w ∧
      w.WellFormed ∧
      w.session.hooks.chain "main" = ["__hook_main_orig_1", "__hook_main_orig_2"] ∧
      w.session.redirects.get? "main" = some { replacement := "__hook_main_hook_3", argc := 0 } := by
  let w₁ := (Operation.softHook "main" "call #orig#(argc=0)" "#orig#").after .strict
    { image := linkedImage }
  let w₂ := (Operation.softHook "main" "call" "#orig#").after .strict w₁
  have hrun : Run .strict [.softHook "main" "call #orig#(argc=0)" "#orig#",
      .softHook "main" "call" "#orig#", .hardHook "main" "ret" 0 "#orig#"]
      { image := linkedImage } _ :=
    .cons (Operation.returns_of_lt (by decide) _)
      (.cons (Operation.returns_of_lt (w := w₁) (by decide +kernel) _)
        (.cons (Operation.returns_of_lt (w := w₂) (by decide +kernel) _) (.nil _)))
  exact ⟨_, hrun, run_wellFormed (by decide) hrun, by decide +kernel, by decide +kernel⟩

end Engine

end HookPatch
