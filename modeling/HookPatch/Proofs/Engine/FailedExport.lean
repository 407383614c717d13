import HookPatch.Proofs.Engine.Refusals
import HookPatch.Proofs.Engine.WellFormed

namespace HookPatch

open Assembly

namespace Export

def nativeFunction (x : Export) (id : UInt32) : NativeFunction where
  name := x.nativeName
  symbol := dispatchSymbol
  kind := nativeKind
  id := id
  argc := x.argc

/-- What is left of an export without its wrapper: its native function, which has taken the next id. -/
structure LeavesNative (x : Export) (w w' : Workspace) : Prop where
  image : addNative w.image (x.nativeFunction (w.session.ids.next w.image).1) = some w'.image
  session : w'.session = { w.session with ids := (w.session.ids.next w.image).2 }

variable {x : Export} {strictness : Strictness} {modId : String} {w w' : Workspace} {e : EditError}

theorem name_ne_nativeName (x : Export) : x.name ≠ x.nativeName := by
  intro h
  have hlength := congrArg String.length h
  rw [nativeName, String.length_append] at hlength
  have hsuffix : "_interop".length = 8 := rfl
  omega

namespace LeavesNative

theorem image_ne (h : x.LeavesNative w w') : w'.image ≠ w.image := by
  intro heq
  have hlength := (addNative_spec h.image).2.2.length_eq
  rw [heq, List.length_cons] at hlength
  omega

theorem mem_names (h : x.LeavesNative w w') {name : String} (hname : name ∈ w'.image.names) :
    name = x.nativeName ∨ name ∈ w.image.names := by
  obtain ⟨hunits, hfunctions, hnatives⟩ := addNative_spec h.image
  simp only [Image.names, hunits, hfunctions, List.mem_append] at hname ⊢
  rw [(hnatives.map (·.name)).mem_iff, List.map_cons, List.mem_cons] at hname
  rcases hname with hname | hname | hname
  · exact .inr (.inl hname)
  · exact .inl hname
  · exact .inr (.inr hname)

theorem register_again (h : x.LeavesNative w w') (units : List CodeUnit)
    (functions : List Declaration) :
    let w'' : Workspace := { w' with image.units := units, image.functions := functions }
    x.register strictness modId w'' = .error (.nameTaken x.nativeName) w'' := by
  intro w''
  have hnative : x.nativeName ∈ w''.image.nativeFunctions.map (·.name) := by
    have hmem : x.nativeFunction (w.session.ids.next w.image).1 ∈ w'.image.nativeFunctions :=
      (addNative_spec h.image).2.2.mem_iff.mpr List.mem_cons_self
    exact List.mem_map_of_mem hmem
  have htaken : w''.image.hasName x.nativeName :=
    Image.hasName_iff.mpr (List.mem_append_right _ hnative)
  simp only [register, htaken, if_true]

end LeavesNative

/-- An export declares its native function and then defines its wrapper, or does nothing. -/
theorem register_leaves (x : Export) (strictness : Strictness) (modId : String) (w : Workspace) :
    (∃ e w', x.register strictness modId w = .error e w' ∧ w'.image = w.image) ∨
      ∃ w', x.LeavesNative w w' ∧ x.register strictness modId w =
        Engine.defineFunction strictness x.name (x.wrapperText modId) x.argc w' := by
  simp only [register]
  split
  · exact .inl ⟨_, w, rfl, rfl⟩
  split
  · exact .inl ⟨_, w, rfl, rfl⟩
  split
  · exact .inl ⟨_, _, rfl, rfl⟩
  · rename_i image hadd
    exact .inr ⟨{ image, session := _ }, ⟨hadd, rfl⟩, rfl⟩

theorem LeavesNative.register_eq (h : x.LeavesNative w w') (hfree : x.nativeName ∉ w.image.names)
    (hselector : (w.image.nativeFunction? selector).isSome) :
    x.register strictness modId w =
      Engine.defineFunction strictness x.name (x.wrapperText modId) x.argc w' := by
  obtain ⟨image, session⟩ := w'
  obtain ⟨himage, rfl⟩ := h
  have hname : ¬ w.image.hasName x.nativeName := fun h ↦ hfree (Image.hasName_iff.mp h)
  have hsome : ¬ (w.image.nativeFunction? selector).isNone := by
    rwa [Option.isNone_iff_eq_none, ← ne_eq, Option.ne_none_iff_isSome]
  rw [nativeFunction] at himage
  simp only [register, if_neg hname, if_neg hsome, himage]

/-- An export that fails leaves the image as it was if it fails for its native function: because the
name is taken, or for want of the selector or of a library to declare it in. If it fails for its
wrapper, because that name is taken or its source is bad, the image has the native function, and the
same export fails for it even when the wrapper no longer stands in its way. -/
theorem register_failed (h : x.register strictness modId w = .error e w') :
    ((e = .nameTaken x.nativeName ∨ e = .unknownName selector) ∧ w' = w ∨
        e = .unknownName extensionName ∧
          w' = { w with session := { w.session with ids := (w.session.ids.next w.image).2 } }) ∨
      (e = .nameTaken x.name ∧ x.name ∈ w.image.names ∨ ∃ cause, e = .badSource x.name cause) ∧
        x.LeavesNative w w' ∧ w'.image ≠ w.image ∧ ∀ units functions,
          let w'' : Workspace := { w' with image.units := units, image.functions := functions }
          x.register strictness modId w'' = .error (.nameTaken x.nativeName) w'' := by
  simp only [register] at h
  split at h
  · cases h
    exact .inl (.inl ⟨.inl rfl, rfl⟩)
  split at h
  · cases h
    exact .inl (.inl ⟨.inr rfl, rfl⟩)
  split at h
  · cases h
    exact .inl (.inr ⟨rfl, rfl⟩)
  · rename_i image hadd
    obtain ⟨rfl, hcause⟩ := Engine.defineFunction_refused h
    have hnative : x.LeavesNative w
        { image, session := { w.session with ids := (w.session.ids.next w.image).2 } } := ⟨hadd, rfl⟩
    refine .inr ⟨?_, hnative, hnative.image_ne, hnative.register_again⟩
    rcases hcause with ⟨he, hname⟩ | hbad
    · exact .inl ⟨he, (hnative.mem_names hname).resolve_left x.name_ne_nativeName⟩
    · exact .inr hbad

def scoreExport : Export := { name := "score", argc := 1, symbol := "score" }

def scoreWork : Workspace := stateAfter (addSelector "interop") { image.units := [{ name := "score" }] }

theorem exists_register_failed : ∃ e w', scoreExport.register .strict "m" scoreWork = .error e w' ∧
    w'.image ≠ scoreWork.image := by
  obtain ⟨e, w', h⟩ : ∃ e w', scoreExport.register .strict "m" scoreWork = .error e w' :=
    not_succeeds_iff.mp (by decide +kernel)
  refine ⟨e, w', h, ?_⟩
  rw [← stateAfter_error h]
  decide +kernel

theorem register_failed_score :
    ∃ e w', scoreExport.register .strict "m" scoreWork = .error e w' ∧
      scoreExport.LeavesNative scoreWork w' ∧
      scoreExport.register .strict "m" { w' with image.units := [], image.functions := [] } =
        .error (.nameTaken "score_interop") { w' with image.units := [], image.functions := [] } := by
  obtain ⟨e, w', h, himage⟩ := exists_register_failed
  rcases register_failed h with (⟨-, rfl⟩ | ⟨-, rfl⟩) | ⟨-, hnative, -, hagain⟩
  · exact absurd rfl himage
  · exact absurd rfl himage
  · exact ⟨e, w', h, hnative, hagain [] []⟩

/-- The unit in the way of an export is removed, and the export still fails. -/
theorem register_failed_declares :
    ∃ e w', scoreExport.register .strict "m" scoreWork = .error e w' ∧ w'.image ≠ scoreWork.image ∧
      succeeds (scoreExport.register .strict "m") { scoreWork with image.units := [] } ∧
      ¬ succeeds (scoreExport.register .strict "m") { w' with image.units := [] } := by
  obtain ⟨e, w', h, himage⟩ := exists_register_failed
  refine ⟨e, w', h, himage, by decide +kernel, ?_⟩
  rw [← stateAfter_error h]
  decide +kernel

end Export

end HookPatch
