import HookPatch.Proofs.Engine.Runs
import HookPatch.Proofs.Image.Code

namespace HookPatch

open Assembly

structure Workspace.Vacated (w : Workspace) (code preserved : String) (w' : Workspace) : Prop where
  old : ∃ u, w.image.unit? code = some u ∧ u.preservedAs preserved ∈ w'.image.units
  left : ∃ u, w'.image.unit? code = some u ∧ u.body = []
  more : w'.image.units.length = w.image.units.length + 1
  chain : w'.session.hooks = w.session.hooks.record code preserved
  extensions : w'.image.extensions = w.image.extensions
  redirects : w'.session.redirects = w.session.redirects
  ids : w'.session.ids = w.session.ids

theorem Workspace.Vacated.image_ne {w w' : Workspace} {code preserved : String}
    (h : w.Vacated code preserved w') : w'.image ≠ w.image := by
  intro heq
  have hmore := h.more
  rw [heq] at hmore
  omega

namespace Image

variable {image : Image} {name : String}

theorem setBody_self {c₁ c₂ : List (String × List Instruction × UInt16)} {body : List Instruction}
    {argc : UInt16} (h : image.code = c₁ ++ (name, body, argc) :: c₂) :
    image.setBody c₁.length body = image := by
  obtain ⟨l₁, l', hunits, rfl, hrest⟩ := List.map_eq_append_iff.mp h
  obtain ⟨u, l₂, rfl, hu, rfl⟩ := List.map_eq_cons_iff.mp hrest
  have hbody : u.body = body := by
    simp only [CodeUnit.code, Prod.mk.injEq] at hu
    exact hu.2.1
  have hself : { u with body } = u := by rw [← hbody]
  have hmodify : image.units.modify l₁.length (fun u ↦ { u with body }) = image.units := by
    rw [hunits, modify_append_cons, hself]
  rw [setBody, List.length_map, hmodify]

theorem notMem_of_unitIndex? {l₁ l₂ : List CodeUnit} (hunits : image.units = l₁ ++ l₂)
    (h : image.unitIndex? name = some l₁.length) : name ∉ l₁.map (·.name) := by
  intro hmem
  obtain ⟨u, hu, rfl⟩ := List.mem_map.mp hmem
  obtain ⟨i, hi⟩ : ∃ i, l₁.findIdx? (·.name = u.name) = some i :=
    Option.isSome_iff_exists.mp (List.findIdx?_isSome.trans (List.any_eq_true.mpr ⟨u, hu, by simp⟩))
  rw [unitIndex?, hunits, List.findIdx?_append, hi, Option.some_or, Option.some.injEq] at h
  exact absurd (List.findIdx?_eq_some_iff_getElem.mp hi).1 (by omega)

theorem preservedAs_mem_moveBody (image : Image) (index : Nat) (u : CodeUnit) (name : String) :
    u.preservedAs name ∈ (image.moveBody index u name).units := by
  rw [moveBody, declare_units, insertBehind]
  exact (List.mem_insertIdx (Nat.min_le_right _ _)).mpr (.inl rfl)

end Image

theorem substitute_empty_source (name : String) : substitute defaultPlaceholder name "" = "" := by
  rfl

theorem assembleFor_empty (strictness : Strictness) (image : Image) (target : String) :
    Engine.assembleFor strictness image target "" = .ok [] := by
  rfl

theorem eq_badSource_of_assembleFor {strictness : Strictness} {image : Image}
    {target source : String} {e : EditError}
    (h : Engine.assembleFor strictness image target source = .error e) :
    ∃ cause, e = .badSource target cause := by
  rw [Engine.assembleFor] at h
  cases hassemble : assemble strictness image target source with
  | ok body =>
    rw [hassemble] at h
    cases h
  | error cause =>
    rw [hassemble] at h
    cases h
    exact ⟨cause, rfl⟩

theorem Workspace.vacated_of_preserve {w w' : Workspace} {l₁ l₂ : List CodeUnit} {u : CodeUnit}
    {preserved : String} (hu : w.image.unit? u.name = some u)
    (hunits : w.image.units = l₁ ++ u :: l₂) (hfirst : u.name ∉ l₁.map (·.name))
    (hmove : w.preserve l₁.length u = (preserved, w')) : w.Vacated u.name preserved w' := by
  obtain ⟨names, -, rfl⟩ := preserve_eq hmove
  have hcode := Image.moveBody_code hunits preserved
  refine ⟨⟨u, hu, Image.preservedAs_mem_moveBody _ _ _ _⟩, ?_, ?_, rfl, ?_, rfl, rfl⟩
  · have hbefore : u.name ∉ (l₁.map CodeUnit.code).map (·.1) := by
      rw [List.map_map]
      exact hfirst
    have hlookup := lookup_append_cons_self hbefore ([], u.arity)
      ((preserved, u.body, u.arity) :: l₂.map CodeUnit.code)
    rw [← hcode] at hlookup
    obtain ⟨v, hv, hbody, -⟩ := Image.unit?_of_lookup_code hlookup
    exact ⟨v, hv, hbody⟩
  · have hlength := congrArg List.length hcode
    rw [Image.code, List.length_map] at hlength
    rw [hlength, hunits]
    simp only [List.length_append, List.length_map, List.length_cons]
    omega
  · exact Image.moveBody_extensions _

namespace Engine

variable {strictness : Strictness} {w w' : Workspace} {code source placeholder : String}

/-- A soft hook that fails is refused for want of its unit, and then everything is as before, or it
has bad source. Then it comes to what a hook with the empty source comes to: the unit has lost its
body, which is in a new unit of the chain, and apart from that the extensions, the pending
redirections and the ids are as before. -/
theorem softHook_failed {e : EditError}
    (h : softHook strictness code source placeholder w = .error e w') :
    (e = .unknownName code ∧ w.image.unit? code = none ∧ w' = w) ∨
      ∃ cause preserved, e = .badSource code cause ∧
        softHook strictness code "" defaultPlaceholder w = .ok preserved w' ∧
        w.Vacated code preserved w' ∧ w'.image ≠ w.image := by
  cases hu : w.image.unit? code with
  | none =>
    refine .inl ?_
    simp only [softHook, hu] at h
    split at h <;> simp_all
  | some u =>
    obtain ⟨l₁, l₂, hunits, rfl, hindex⟩ := Image.exists_split hu
    obtain ⟨preserved, moved, hmove⟩ : ∃ p m, w.preserve l₁.length u = (p, m) := ⟨_, _, rfl⟩
    have hvacated := Workspace.vacated_of_preserve hu hunits
      (Image.notMem_of_unitIndex? hunits hindex) hmove
    have hempty : softHook strictness u.name "" defaultPlaceholder w = .ok preserved moved := by
      have hbody : moved.image.setBody l₁.length [] = moved.image := by
        obtain ⟨names, -, rfl⟩ := Workspace.preserve_eq hmove
        have hself := Image.setBody_self (Image.moveBody_code hunits preserved)
        rwa [List.length_map] at hself
      simp only [softHook, hu, hindex, hmove, substitute_empty_source, assembleFor_empty, hbody]
    simp only [softHook, hu, hindex, hmove] at h
    cases hsource : assembleFor strictness moved.image u.name
        (substitute placeholder preserved source) with
    | ok body =>
      rw [hsource] at h
      cases h
    | error e' =>
      rw [hsource] at h
      cases h
      obtain ⟨cause, rfl⟩ := eq_badSource_of_assembleFor hsource
      exact .inr ⟨cause, preserved, rfl, hempty, hvacated, hvacated.image_ne⟩

def oneImage : Image where
  units := [{ name := "main", body := [.pushInt 1, .ret] }]

theorem exists_softHook_failed (h : ¬ succeeds (softHook strictness code source placeholder) w) :
    ∃ e w', softHook strictness code source placeholder w = .error e w' :=
  not_succeeds_iff.mp h

theorem softHook_failed_call :
    ∃ e w', softHook .strict "main" "call" "#orig#" { image := oneImage } = .error e w' ∧
      ((e = .unknownName "main" ∧ oneImage.unit? "main" = none ∧ w' = { image := oneImage }) ∨
        ∃ cause preserved, e = .badSource "main" cause ∧
          softHook .strict "main" "" defaultPlaceholder { image := oneImage } = .ok preserved w' ∧
          Workspace.Vacated { image := oneImage } "main" preserved w' ∧ w'.image ≠ oneImage) := by
  obtain ⟨e, w', h⟩ : ∃ e w', softHook .strict "main" "call" "#orig#" { image := oneImage } =
    .error e w' := exists_softHook_failed (by decide +kernel)
  exact ⟨e, w', h, softHook_failed h⟩

/-- The unit has no instructions any more, and a hook is recorded that is not there. -/
theorem softHook_failed_moves :
    ∃ e w', softHook .strict "main" "call" "#orig#" { image := oneImage } = .error e w' ∧
      (oneImage.unit? "main").map (·.body) = some [.pushInt 1, .ret] ∧
      (w'.image.unit? "main").map (·.body) = some [] ∧
      w'.session.hooks.chain "main" = ["__hook_main_orig_1"] := by
  obtain ⟨e, w', h⟩ : ∃ e w', softHook .strict "main" "call" "#orig#" { image := oneImage } =
    .error e w' := exists_softHook_failed (by decide +kernel)
  refine ⟨e, w', h, by decide, ?_, ?_⟩
  · rw [← stateAfter_error h]
    decide +kernel
  · rw [← stateAfter_error h]
    decide +kernel

end Engine

end HookPatch
