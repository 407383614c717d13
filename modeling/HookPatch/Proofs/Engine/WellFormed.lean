import HookPatch.Proofs.Engine.Operation
import HookPatch.Proofs.Engine.Preserve
import HookPatch.Proofs.Session.Tables

namespace HookPatch

def Image.Implements (image : Image) (name : String) : Prop :=
  name ∈ image.units.map (·.name) ∧ ⟨name, some name⟩ ∈ image.functions

def Image.Serves (image : Image) (function : String) (r : Redirect) : Prop :=
  image.isCallable function ∧ ∃ u, image.unit? r.replacement = some u ∧ u.arity = r.argc

structure Workspace.WellFormed (w : Workspace) : Prop where
  image : w.image.WellFormed
  preserved : ∀ p ∈ w.session.hooks.preserved, w.image.Implements p
  preserved_nodup : w.session.hooks.preserved.Nodup
  redirects : ∀ e ∈ w.session.redirects.entries, w.image.Serves e.1 e.2

namespace Image

variable {image image' : Image}

theorem Implements.of_extends (hext : image.Extends image') {name : String}
    (h : image.Implements name) : image'.Implements name :=
  ⟨hext.mem_units h.1, hext.functions h.2⟩

theorem Serves.of_extends (hext : image.Extends image') (hwf : image'.WellFormed)
    {function : String} {r : Redirect} (h : image.Serves function r) : image'.Serves function r := by
  obtain ⟨hcall, u, hu, hargc⟩ := h
  obtain ⟨hmem, huname⟩ := unit?_eq_some hu
  obtain ⟨v, hv, hname, harity⟩ := hext.units u hmem
  exact ⟨hext.isCallable hcall, v,
    (unit?_eq_some_iff hwf.units_nodup).mpr ⟨hv, hname.trans huname⟩, harity.trans hargc⟩

end Image

namespace Workspace

/-- It is enough to look at what is new in the tables of a session. -/
theorem WellFormed.grow {w w' : Workspace} (h : w.WellFormed) (himage : w'.image.WellFormed)
    (hext : w.image.Extends w'.image)
    (hpreserved : ∀ p ∈ w'.session.hooks.preserved,
      p ∈ w.session.hooks.preserved ∨ w'.image.Implements p)
    (hnodup : w'.session.hooks.preserved.Nodup)
    (hredirects : ∀ e ∈ w'.session.redirects.entries,
      e ∈ w.session.redirects.entries ∨ w'.image.Serves e.1 e.2) : w'.WellFormed where
  image := himage
  preserved p hp := (hpreserved p hp).elim (fun hp ↦ (h.preserved p hp).of_extends hext) id
  preserved_nodup := hnodup
  redirects e he := (hredirects e he).elim (fun he ↦ (h.redirects e he).of_extends hext himage) id

variable {w : Workspace} {image : Image} {session : Session}

theorem WellFormed.with_image (h : w.WellFormed) (himage : image.WellFormed)
    (hext : w.image.Extends image) (hhooks : session.hooks = w.session.hooks)
    (hredirects : session.redirects = w.session.redirects) :
    Workspace.WellFormed { image, session } :=
  h.grow himage hext (fun p hp ↦ .inl (hhooks ▸ hp)) (by rw [hhooks]; exact h.preserved_nodup)
    (fun e he ↦ .inl (hredirects ▸ he))

theorem WellFormed.with_outline (h : w.WellFormed)
    (houtline : image.units.map CodeUnit.outline = w.image.units.map CodeUnit.outline)
    (hfunctions : image.functions = w.image.functions)
    (hextensions : image.extensions = w.image.extensions)
    (hhooks : session.hooks = w.session.hooks)
    (hredirects : session.redirects = w.session.redirects) :
    Workspace.WellFormed { image, session } :=
  h.with_image (h.image.of_outline houtline hfunctions hextensions)
    (Image.extends_of_outline houtline hfunctions) hhooks hredirects

/-- Nothing of this depends on the name counter and the id cursor. -/
theorem WellFormed.with_session (h : w.WellFormed) (hhooks : session.hooks = w.session.hooks)
    (hredirects : session.redirects = w.session.redirects) :
    Workspace.WellFormed { w with session } :=
  h.with_outline rfl rfl rfl hhooks hredirects

theorem WellFormed.without_redirects (h : w.WellFormed) :
    Workspace.WellFormed { w with session := { w.session with redirects := .empty } } where
  image := h.image
  preserved := h.preserved
  preserved_nodup := h.preserved_nodup
  redirects e he := by simp at he

theorem WellFormed.preserve (h : w.WellFormed) {l₁ l₂ : List CodeUnit} {u : CodeUnit}
    {name : String} {w' : Workspace} (hunits : w.image.units = l₁ ++ u :: l₂)
    (hspare : w.image.HasSpareName u.name "orig") (hmove : w.preserve l₁.length u = (name, w')) :
    w'.WellFormed := by
  obtain ⟨names, hnext, rfl⟩ := preserve_eq hmove
  have hname : name ∉ w.image.names := by
    have hfresh := w.session.names.next_fresh hspare
    rwa [hnext] at hfresh
  have hunit := (Image.not_mem_names.mp hname).1
  have himage := h.image.moveBody hunits hname
  have hperm := w.session.hooks.preserved_record u.name name
  refine h.grow himage (Image.extends_moveBody hunits h.image.units_nodup hname) ?_ ?_ ?_
  · intro p hp
    rcases List.mem_cons.mp (hperm.mem_iff.mp hp) with rfl | hp
    · refine .inr ⟨?_, ?_⟩
      · exact (Image.moveBody_names hunits h.image.units_nodup).mem_iff.mpr List.mem_cons_self
      · simp [Image.moveBody_functions hname]
    · exact .inl hp
  · rw [hperm.nodup_iff, List.nodup_cons]
    exact ⟨fun hp ↦ hunit (h.preserved name hp).1, h.preserved_nodup⟩
  · exact fun e he ↦ .inl he

end Workspace

theorem redirectUnit_outline (t : Redirects) (u : CodeUnit) :
    (redirectUnit t u).2.outline = u.outline := by
  unfold redirectUnit; split <;> rfl

theorem redirectImage_spec {t : Redirects} {image image' : Image} {n : Nat}
    (h : redirectImage t image = .ok (n, image')) :
    image'.units.map CodeUnit.outline = image.units.map CodeUnit.outline ∧
      image'.functions = image.functions ∧ image'.extensions = image.extensions := by
  rw [redirectImage] at h
  split at h
  · simp at h
  · simp only [Except.ok.injEq, Prod.mk.injEq, List.map_map] at h
    obtain ⟨-, rfl⟩ := h
    refine ⟨?_, rfl, rfl⟩
    rw [List.map_map]
    exact List.map_congr_left fun u _ ↦ redirectUnit_outline t u

theorem Export.addNative_spec {image image' : Image} {f : NativeFunction}
    (h : addNative image f = some image') :
    image'.units = image.units ∧ image'.functions = image.functions ∧
      image'.nativeFunctions.Perm (f :: image.nativeFunctions) := by
  rw [addNative] at h
  split at h
  · rename_i name version library libraries hfind
    obtain rfl := Option.some.inj h
    obtain ⟨l₁, l₂, hsplit, hmodify⟩ := exists_modifyFirst hfind
    refine ⟨rfl, rfl, ?_⟩
    rw [Image.nativeFunctions, Image.nativeFunctions, hmodify, hsplit]
    simp only [List.flatMap_append, List.flatMap_cons, Extension.functions, List.append_assoc,
      List.singleton_append]
    exact (List.perm_middle.append_left _).trans List.perm_middle
  · simp at h

namespace Engine

open Assembly

variable {strictness : Strictness} {w : Workspace} (h : w.WellFormed)

include h

theorem softHook_wellFormed {code source placeholder : String}
    (hspare : (w.image.unit? code).isSome → w.image.HasSpareName code "orig") :
    (stateAfter (softHook strictness code source placeholder) w).WellFormed := by
  rcases softHook_cases strictness w code source placeholder with
    ⟨-, heq⟩ | ⟨l₁, u, l₂, preserved, moved, hu, rfl, hunits, hmove, hresult⟩
  · rw [stateAfter_error heq]; exact h
  have hmoved := h.preserve hunits (hspare (hu ▸ rfl)) hmove
  rcases hresult with ⟨e, -, heq⟩ | ⟨body, -, heq⟩
  · rw [stateAfter_error heq]; exact hmoved
  · rw [stateAfter_ok heq]
    exact hmoved.with_outline (Image.setBody_outline _ _) rfl rfl rfl rfl

theorem hardHook_wellFormed {function source : String} {argc : UInt16} {placeholder : String}
    (hspare : w.image.isCallable function → w.image.HasSpareName function "hook") :
    (stateAfter (hardHook strictness function source argc placeholder) w).WellFormed := by
  rcases hardHook_cases strictness w function source argc placeholder with
    ⟨-, heq⟩ | ⟨name, names, hcall, hnext, ⟨e, heq⟩ | ⟨body, -, heq⟩⟩
  · rw [stateAfter_error heq]; exact h
  · rw [stateAfter_error heq]; exact h.with_session rfl rfl
  have hname : name ∉ w.image.names := by
    have hfresh := w.session.names.next_fresh (hspare hcall)
    rwa [hnext] at hfresh
  have hext := Image.extends_define hname argc body
  have himage := h.image.define hname argc body
  rw [stateAfter_ok heq]
  refine h.grow himage hext (fun p hp ↦ .inl hp) h.preserved_nodup fun e he ↦ ?_
  rcases Redirects.mem_insert he with rfl | he
  · refine .inr ⟨hext.isCallable hcall, { name, body, arity := argc }, ?_, rfl⟩
    exact (Image.unit?_eq_some_iff himage.units_nodup).mpr ⟨by simp, rfl⟩
  · exact .inl he

theorem editInnermost_wellFormed {name : String} (edit : Cursor → Cursor) :
    (stateAfter (editInnermost name fun c ↦ ((), edit c)) w).WellFormed := by
  rcases editInnermost_cases w name fun c ↦ ((), edit c) with heq | ⟨target, u, -, -, heq⟩
  · rw [stateAfter_error heq]; exact h
  · rw [stateAfter_ok heq]
    exact h.with_outline (Image.modifyUnit_outline _ _ _) rfl rfl rfl rfl

theorem defineFunction_wellFormed {name source : String} {argc : UInt16} :
    (stateAfter (defineFunction strictness name source argc) w).WellFormed := by
  rcases defineFunction_cases strictness w name source argc with
    ⟨e, heq⟩ | ⟨body, hname, -, heq⟩
  · rw [stateAfter_error heq]; exact h
  · rw [stateAfter_ok heq]
    exact h.with_image (h.image.define hname argc body) (Image.extends_define hname argc body)
      rfl rfl

theorem applyRedirects_wellFormed : (stateAfter applyRedirects w).WellFormed := by
  rcases applyRedirects_cases w with ⟨n, heq⟩ | ⟨e, heq⟩ | ⟨n, image, himage, heq⟩
  · rw [stateAfter_ok heq]; exact h.without_redirects
  · rw [stateAfter_error heq]; exact h.without_redirects
  · obtain ⟨houtline, hfunctions, hextensions⟩ := redirectImage_spec himage
    rw [stateAfter_ok heq]
    exact h.without_redirects.with_outline houtline hfunctions hextensions rfl rfl

theorem addSelector_wellFormed {library : String} :
    (stateAfter (Export.addSelector library) w).WellFormed := by
  rcases addSelector_cases w library with heq | ⟨extension, f, ids, hfree, hfs, hname, heq⟩
  · rw [stateAfter_error heq]; exact h
  · rw [stateAfter_ok heq]
    have hnatives : (w.image.addExtension extension).nativeFunctions =
        w.image.nativeFunctions ++ [f] := by
      simp [Image.nativeFunctions, Image.addExtension, hfs]
    refine h.with_image (h.image.addNative (hname ▸ hfree) rfl rfl ?_)
      (Image.extends_of_units_eq rfl rfl) rfl rfl
    rw [hnatives]
    exact List.perm_append_singleton f _

theorem register_wellFormed {x : Export} {modId : String} :
    (stateAfter (x.register strictness modId) w).WellFormed := by
  rcases register_cases strictness w x modId with
    ⟨e, ids, heq⟩ | ⟨f, image, ids, hfree, hname, hadd, heq⟩
  · rw [stateAfter_error heq]; exact h.with_session rfl rfl
  · obtain ⟨hunits, hfunctions, hnatives⟩ := Export.addNative_spec hadd
    have hadded : Workspace.WellFormed { image, session := { w.session with ids } } :=
      h.with_image (h.image.addNative (hname ▸ hfree) hunits hfunctions hnatives)
        (Image.extends_of_units_eq hunits hfunctions) rfl rfl
    rw [stateAfter_congr heq]
    exact defineFunction_wellFormed hadded

theorem after_wellFormed {op : Operation} (hreturns : op.Returns w) :
    (op.after strictness w).WellFormed := by
  cases op with
  | softHook => exact softHook_wellFormed h hreturns
  | hardHook => exact hardHook_wellFormed h hreturns
  | arityHook function source placeholder =>
    rcases arityHook_cases strictness w function source placeholder with
      ⟨-, heq⟩ | ⟨argc, hargc, heq⟩
    · rw [Operation.after, stateAfter_error heq]; exact h
    · rw [Operation.after, stateAfter_congr heq]
      exact hardHook_wellFormed h (hreturns (hargc ▸ rfl))
  | editInnermost name edit => exact editInnermost_wellFormed h edit
  | defineFunction => exact defineFunction_wellFormed h
  | addSelector => exact addSelector_wellFormed h
  | registerExport => exact register_wellFormed h
  | applyRedirects => exact applyRedirects_wellFormed h

end Engine

end HookPatch
