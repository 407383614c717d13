import HookPatch.Proofs.Engine.FailedExport
import HookPatch.Proofs.Engine.Runs
import HookPatch.Proofs.Session.Ids

namespace HookPatch

open Assembly ExtensionIds

theorem Image.nativeIds_congr {image image' : Image} (h : image'.extensions = image.extensions) :
    image'.nativeIds = image.nativeIds := by
  rw [nativeIds, nativeIds, nativeFunctions, nativeFunctions, h]

theorem length_le_size {ids : List UInt32} (h : ids.Nodup) : ids.length ≤ UInt32.size := by
  have hnumbers : (ids.map UInt32.toNat).Nodup := h.map fun _ _ ↦ UInt32.toNat_inj.mp
  have hbelow : ids.map UInt32.toNat ⊆ List.range UInt32.size := by
    intro n hn
    obtain ⟨id, -, rfl⟩ := List.mem_map.mp hn
    exact List.mem_range.mpr id.toNat_lt_size
  have hle := hnumbers.length_le_of_subset hbelow
  rwa [List.length_map, List.length_range] at hle

/-- The ids of an image and the one that its next native function is given. -/
def Workspace.nextIds (w : Workspace) : List UInt32 :=
  (w.session.ids.next w.image).1 :: w.image.nativeIds

theorem Workspace.nodup_nextIds {w : Workspace} :
    w.nextIds.Nodup ↔ w.image.nativeIds.Nodup ∧ w.nextIds.length ≤ UInt32.size := by
  constructor
  · intro h
    exact ⟨(List.nodup_cons.mp h).2, length_le_size h⟩
  · intro ⟨hnodup, hroom⟩
    rw [nextIds, List.length_cons] at hroom
    exact List.nodup_cons.mpr ⟨next_not_mem _ (by omega), hnodup⟩

namespace Engine

variable {strictness : Strictness}

theorem softHook_extensions (code source placeholder : String) (w : Workspace) :
    (stateAfter (softHook strictness code source placeholder) w).image.extensions =
      w.image.extensions := by
  rcases softHook_cases strictness w code source placeholder with
    ⟨-, heq⟩ | ⟨l₁, u, l₂, preserved, moved, -, -, -, hmove, hresult⟩
  · rw [stateAfter_error heq]
  obtain ⟨names, -, rfl⟩ := Workspace.preserve_eq hmove
  rcases hresult with ⟨e, -, heq⟩ | ⟨body, -, heq⟩
  · rw [stateAfter_error heq]
    exact Image.moveBody_extensions _
  · rw [stateAfter_ok heq]
    exact Image.moveBody_extensions _

theorem hardHook_extensions (function source : String) (argc : UInt16) (placeholder : String)
    (w : Workspace) :
    (stateAfter (hardHook strictness function source argc placeholder) w).image.extensions =
      w.image.extensions := by
  rcases hardHook_cases strictness w function source argc placeholder with
    ⟨-, heq⟩ | ⟨name, names, -, -, ⟨e, heq⟩ | ⟨body, -, heq⟩⟩
  · rw [stateAfter_error heq]
  · rw [stateAfter_error heq]
  · rw [stateAfter_ok heq]
    exact Image.define_extensions _ _ _

theorem defineFunction_extensions (name source : String) (argc : UInt16) (w : Workspace) :
    (stateAfter (defineFunction strictness name source argc) w).image.extensions =
      w.image.extensions := by
  rcases defineFunction_cases strictness w name source argc with ⟨e, heq⟩ | ⟨body, -, -, heq⟩
  · rw [stateAfter_error heq]
  · rw [stateAfter_ok heq]
    exact Image.define_extensions _ _ _

theorem applyRedirects_extensions (w : Workspace) :
    (stateAfter applyRedirects w).image.extensions = w.image.extensions := by
  rcases applyRedirects_cases w with ⟨n, heq⟩ | ⟨e, heq⟩ | ⟨n, image, himage, heq⟩
  · rw [stateAfter_ok heq]
  · rw [stateAfter_error heq]
  · rw [stateAfter_ok heq]
    exact (redirectImage_spec himage).2.2

theorem addSelector_nativeIds (library : String) (w : Workspace) :
    (stateAfter (Export.addSelector library) w).image.nativeIds = w.image.nativeIds ∨
      (stateAfter (Export.addSelector library) w).image.nativeIds.Perm w.nextIds := by
  rw [stateAfter, Export.addSelector]
  split
  · exact .inl rfl
  · right
    simp only [resultState, Image.nativeIds, Image.nativeFunctions, Image.addExtension,
      List.flatMap_append, List.map_append]
    exact List.perm_append_singleton _ _

theorem register_nativeIds (x : Export) (modId : String) (w : Workspace) :
    (stateAfter (x.register strictness modId) w).image.nativeIds = w.image.nativeIds ∨
      (stateAfter (x.register strictness modId) w).image.nativeIds.Perm w.nextIds := by
  rcases x.register_leaves strictness modId w with ⟨e, w', heq, himage⟩ | ⟨w', hnative, heq⟩
  · rw [stateAfter_error heq, himage]
    exact .inl rfl
  · rw [stateAfter_congr heq, Image.nativeIds_congr (defineFunction_extensions _ _ _ _)]
    have hperm := (Export.addNative_spec hnative.image).2.2.map NativeFunction.id
    exact .inr hperm

theorem after_nativeIds (op : Operation) (w : Workspace) :
    (op.after strictness w).image.nativeIds = w.image.nativeIds ∨
      (op.after strictness w).image.nativeIds.Perm w.nextIds := by
  cases op with
  | softHook => exact .inl (Image.nativeIds_congr (softHook_extensions _ _ _ _))
  | hardHook => exact .inl (Image.nativeIds_congr (hardHook_extensions _ _ _ _ _))
  | arityHook function source placeholder =>
    rcases arityHook_cases strictness w function source placeholder with
      ⟨-, heq⟩ | ⟨argc, -, heq⟩
    · rw [Operation.after, stateAfter_error heq]
      exact .inl rfl
    · rw [Operation.after, stateAfter_congr heq]
      exact .inl (Image.nativeIds_congr (hardHook_extensions _ _ _ _ _))
  | editInnermost name edit =>
    rcases editInnermost_cases w name fun c ↦ ((), edit c) with heq | ⟨target, u, -, -, heq⟩
    · rw [Operation.after, stateAfter_error heq]
      exact .inl rfl
    · rw [Operation.after, stateAfter_ok heq]
      exact .inl rfl
  | defineFunction => exact .inl (Image.nativeIds_congr (defineFunction_extensions _ _ _ _))
  | addSelector => exact addSelector_nativeIds _ _
  | registerExport => exact register_nativeIds _ _ _
  | applyRedirects => exact .inl (Image.nativeIds_congr (applyRedirects_extensions _))

theorem after_nodup (op : Operation) (w : Workspace) :
    (op.after strictness w).image.nativeIds.Nodup ↔ w.image.nativeIds.Nodup ∧
      (op.after strictness w).image.nativeIds.length ≤ UInt32.size := by
  rcases after_nativeIds op w with heq | hperm
  · rw [heq]
    exact ⟨fun h ↦ ⟨h, length_le_size h⟩, And.left⟩
  · rw [hperm.nodup_iff, hperm.length_eq]
    exact Workspace.nodup_nextIds

theorem length_nativeIds_le_after (op : Operation) (w : Workspace) :
    w.image.nativeIds.length ≤ (op.after strictness w).image.nativeIds.length := by
  rcases after_nativeIds op w with heq | hperm
  · rw [heq]
  · rw [hperm.length_eq, Workspace.nextIds, List.length_cons]
    exact Nat.le_succ _

theorem length_nativeIds_le_afterAll (ops : List Operation) (w : Workspace) :
    w.image.nativeIds.length ≤ (afterAll strictness ops w).image.nativeIds.length := by
  induction ops generalizing w with
  | nil => exact Nat.le_refl _
  | cons op ops ih => exact (length_nativeIds_le_after op w).trans (ih _)

/-- Ids that differ go on to differ, as long as there are as many ids as native functions. -/
theorem afterAll_nodup (ops : List Operation) (w : Workspace) :
    (afterAll strictness ops w).image.nativeIds.Nodup ↔ w.image.nativeIds.Nodup ∧
      (afterAll strictness ops w).image.nativeIds.length ≤ UInt32.size := by
  induction ops generalizing w with
  | nil => exact ⟨fun h ↦ ⟨h, length_le_size h⟩, And.left⟩
  | cons op ops ih =>
    let w' := op.after strictness w
    have hlength : w'.image.nativeIds.length ≤ (afterAll strictness ops w').image.nativeIds.length :=
      length_nativeIds_le_afterAll ops w'
    have hstep : w'.image.nativeIds.Nodup ↔ _ := after_nodup op w
    change (afterAll strictness ops w').image.nativeIds.Nodup ↔ w.image.nativeIds.Nodup ∧
      (afterAll strictness ops w').image.nativeIds.length ≤ UInt32.size
    rw [ih w', hstep, and_assoc, and_congr_right_iff]
    intro _
    exact ⟨And.right, fun h ↦ ⟨hlength.trans h, h⟩⟩

/-- A new generator that is asked for one image after another, whatever is done to them in between,
comes back every time if there are more ids than images and ids that these have. What it gives out
increases, and each id is the least behind the one before that its image does not have. In a session,
ids that differ go on to differ, unless there are more native functions than ids. -/
theorem draws_least_and_distinct (strictness : Strictness) :
    (∀ images : List Image, images.length + (idsOf images).card < UInt32.size →
        ∃ ids g, Draws {} images ids g) ∧
      (∀ (before : List Image) (image : Image) (after : List Image) ids g,
        Draws {} (before ++ image :: after) ids g →
        drawAll (before ++ image :: after) {} = (ids, g) ∧ ids.Pairwise (· < ·) ∧
          ∃ earlier id later, ids = earlier ++ id :: later ∧ earlier.length = before.length ∧
            id ∉ image.nativeIds ∧
            (∀ m, m < id → (∀ r ∈ earlier, r < m) → m ∈ image.nativeIds) ∧
            id.toNat ≤ before.length + (idsOf (before ++ [image])).card) ∧
      ∀ ops w, (afterAll strictness ops w).image.nativeIds.Nodup ↔ w.image.nativeIds.Nodup ∧
        (afterAll strictness ops w).image.nativeIds.length ≤ UInt32.size := by
  refine ⟨fun images hroom ↦ ?_, fun before image after ids g h ↦ ?_, afterAll_nodup⟩
  · have hpassed : Passed [] [] ({} : ExtensionIds).cursor := .zero
    refine exists_draws images hpassed ?_
    rwa [List.nil_append, ← idsOf, List.length_nil, Nat.zero_add]
  · exact ⟨h.drawAll_eq, h.spec.2.1, h.at_image⟩

def imageWithIds (ids : List UInt32) : Image where
  extensions := [{
    name := "native"
    libraries := [{
      file := "native.dll"
      functions := ids.map fun id ↦ { name := "f", symbol := "f", kind := Export.nativeKind, id } }] }]

/-- An id is not given out again when no image has it any more. -/
theorem draws_least_and_distinct_freed :
    Draws {} [imageWithIds [0, 1], imageWithIds [], imageWithIds [0, 4]] [2, 3, 5] { cursor := 6 } ∧
      (afterAll .strict [.addSelector "lib", .registerExport Export.scoreExport "m"]
        { image := imageWithIds [0, 1, 3] }).image.nativeIds = [0, 1, 3, 2, 4] ∧
      (afterAll .strict [.addSelector "lib", .registerExport Export.scoreExport "m"]
        { image := imageWithIds [0, 1, 3] }).image.nativeIds.Nodup := by
  obtain ⟨hdraws, hleast, hdistinct⟩ := draws_least_and_distinct .strict
  obtain ⟨ids, g, h⟩ := hdraws [imageWithIds [0, 1], imageWithIds [], imageWithIds [0, 4]]
    (by decide +kernel)
  obtain ⟨heq, -, -⟩ := hleast [] (imageWithIds [0, 1]) [imageWithIds [], imageWithIds [0, 4]] ids g h
  have hall : drawAll [imageWithIds [0, 1], imageWithIds [], imageWithIds [0, 4]] {} =
      ([2, 3, 5], { cursor := 6 }) := by decide +kernel
  obtain ⟨rfl, rfl⟩ := Prod.mk.inj (heq.symm.trans hall)
  exact ⟨h, by decide +kernel, (hdistinct _ _).mpr ⟨by decide +kernel, by decide +kernel⟩⟩

end Engine

end HookPatch
