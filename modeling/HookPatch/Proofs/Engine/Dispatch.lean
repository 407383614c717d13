import HookPatch.Proofs.Engine.NativeIds
import HookPatch.Proofs.Engine.Wrappers

namespace HookPatch

open Assembly

def Extension.extended (e : Extension) (fs : List NativeFunction) : Extension :=
  match e.libraries with
  | [] => e
  | l :: ls => { e with libraries := { l with functions := l.functions ++ fs } :: ls }

theorem Extension.extended_nil (e : Extension) : e.extended [] = e := by
  obtain ⟨name, version, libraries⟩ := e
  cases libraries with
  | nil => rfl
  | cons l ls => simp only [extended, List.append_nil]

theorem Extension.extended_append (e : Extension) (fs gs : List NativeFunction) :
    e.extended (fs ++ gs) = (e.extended fs).extended gs := by
  obtain ⟨name, version, libraries⟩ := e
  cases libraries with
  | nil => rfl
  | cons l ls => simp only [extended, List.append_assoc]

theorem Extension.name_extended (e : Extension) (fs : List NativeFunction) :
    (e.extended fs).name = e.name := by
  obtain ⟨name, version, libraries⟩ := e
  cases libraries <;> rfl

theorem Extension.mem_extended {e : Extension} {f : NativeFunction} (h : f ∈ e.functions)
    (fs : List NativeFunction) : f ∈ (e.extended fs).functions := by
  obtain ⟨name, version, libraries⟩ := e
  cases libraries with
  | nil => exact h
  | cons l ls =>
    simp only [functions, extended, List.flatMap_cons, List.mem_append] at h ⊢
    exact h.imp_left .inl

namespace Export

def withNatives (fs : List NativeFunction) (extensions : List Extension) : List Extension :=
  modifyFirst (·.name = extensionName) (·.extended fs) extensions

section WithNatives

variable {fs gs : List NativeFunction} {e : Extension} {before after extensions : List Extension}

theorem withNatives_split (hbefore : ∀ e' ∈ before, e'.name ≠ extensionName)
    (he : e.name = extensionName) (fs : List NativeFunction) (after : List Extension) :
    withNatives fs (before ++ e :: after) = before ++ e.extended fs :: after := by
  have hdiffers : ∀ e' ∈ before, ¬ decide (e'.name = extensionName) :=
    fun e' he' h ↦ hbefore e' he' (of_decide_eq_true h)
  exact modifyFirst_append_cons hdiffers (decide_eq_true he) after _

theorem withNatives_of_forall (h : ∀ e ∈ extensions, e.name ≠ extensionName)
    (fs : List NativeFunction) : withNatives fs extensions = extensions := by
  induction extensions with
  | nil => rfl
  | cons e extensions ih =>
    obtain ⟨he, hrest⟩ := List.forall_mem_cons.mp h
    have hrest := ih hrest
    simp only [withNatives] at hrest
    simp only [withNatives, modifyFirst, he, decide_false, Bool.false_eq_true, if_false, hrest]

theorem split_of_find? (h : extensions.find? (·.name = extensionName) = some e) :
    ∃ before after, extensions = before ++ e :: after ∧
      (∀ e' ∈ before, e'.name ≠ extensionName) ∧ e.name = extensionName := by
  obtain ⟨hname, before, after, hsplit, hbefore⟩ := List.find?_eq_some_iff_append.mp h
  refine ⟨before, after, hsplit, fun e' he' heq ↦ ?_, of_decide_eq_true hname⟩
  simpa [heq] using hbefore e' he'

theorem exists_split_or_forall (extensions : List Extension) :
    (∃ before e after, extensions = before ++ e :: after ∧
      (∀ e' ∈ before, e'.name ≠ extensionName) ∧ e.name = extensionName) ∨
      ∀ e ∈ extensions, e.name ≠ extensionName := by
  cases hfind : extensions.find? (·.name = extensionName) with
  | none => exact .inr fun e he ↦ by simpa using List.find?_eq_none.mp hfind e he
  | some e =>
    obtain ⟨before, after, hsplit, hbefore, he⟩ := split_of_find? hfind
    exact .inl ⟨before, e, after, hsplit, hbefore, he⟩

theorem withNatives_nil (extensions : List Extension) : withNatives [] extensions = extensions := by
  rcases exists_split_or_forall extensions with ⟨before, e, after, rfl, hbefore, he⟩ | hnone
  · rw [withNatives_split hbefore he, Extension.extended_nil]
  · exact withNatives_of_forall hnone []

theorem withNatives_append (fs gs : List NativeFunction) (extensions : List Extension) :
    withNatives (fs ++ gs) extensions = withNatives gs (withNatives fs extensions) := by
  rcases exists_split_or_forall extensions with ⟨before, e, after, rfl, hbefore, he⟩ | hnone
  · have hname : (e.extended fs).name = extensionName := (e.name_extended fs).trans he
    rw [withNatives_split hbefore he, withNatives_split hbefore he, withNatives_split hbefore hname,
      Extension.extended_append]
  · rw [withNatives_of_forall hnone, withNatives_of_forall hnone, withNatives_of_forall hnone]

theorem mem_withNatives {f : NativeFunction} (h : f ∈ extensions.flatMap (·.functions))
    (fs : List NativeFunction) : f ∈ (withNatives fs extensions).flatMap (·.functions) := by
  rcases exists_split_or_forall extensions with ⟨before, e, after, rfl, hbefore, he⟩ | hnone
  · rw [withNatives_split hbefore he]
    simp only [List.flatMap_append, List.flatMap_cons, List.mem_append] at h ⊢
    exact h.imp_right fun h ↦ h.imp_left fun h ↦ Extension.mem_extended h fs
  · rwa [withNatives_of_forall hnone]

theorem mem_names_of_withNatives {image image' : Image} {name : String}
    (h : image'.extensions = withNatives fs image.extensions)
    (hname : name ∈ image.nativeFunctions.map (·.name)) :
    name ∈ image'.nativeFunctions.map (·.name) := by
  obtain ⟨f, hf, rfl⟩ := List.mem_map.mp hname
  refine List.mem_map_of_mem ?_
  rw [Image.nativeFunctions, h]
  exact mem_withNatives hf fs

end WithNatives

theorem addNative_extensions {image image' : Image} {f : NativeFunction}
    (h : addNative image f = some image') :
    image'.extensions = withNatives [f] image.extensions := by
  rw [addNative] at h
  split at h
  · rename_i name version l ls hfind
    obtain rfl := Option.some.inj h
    obtain ⟨before, after, hsplit, hbefore, hname⟩ := split_of_find? hfind
    simp only [hsplit]
    rw [withNatives_split hbefore hname]
    have hdiffers : ∀ e' ∈ before, ¬ decide (e'.name = extensionName) :=
      fun e' he' h ↦ hbefore e' he' (of_decide_eq_true h)
    rw [modifyFirst_append_cons hdiffers (decide_eq_true hname)]
    rfl
  · cases h

def selectorFunction (id : UInt32) : NativeFunction where
  name := selector
  symbol := selector
  kind := nativeKind
  id := id
  argc := 3

def dispatcher (library : String) (functions : List NativeFunction) : Extension where
  name := extensionName
  version := extensionVersion
  libraries := [{ file := library, functions }]

variable {strictness : Strictness} {library : String} {w w₀ : Workspace}

theorem addSelector_eq_ok (h : addSelector library w = .ok () w₀) :
    w₀.image.extensions =
        w.image.extensions ++ [dispatcher library [selectorFunction (w.session.ids.next w.image).1]] ∧
      selector ∈ w₀.image.nativeFunctions.map (·.name) := by
  rw [addSelector] at h
  split at h
  · cases h
  · cases h
    refine ⟨rfl, ?_⟩
    simp [Image.nativeFunctions, Image.addExtension, Extension.functions]

theorem register_extensions (x : Export) (strictness : Strictness) (modId : String) (w : Workspace) :
    ∃ fs, (stateAfter (x.register strictness modId) w).image.extensions =
      withNatives fs w.image.extensions := by
  rcases x.register_leaves strictness modId w with ⟨e, w', heq, himage⟩ | ⟨w', hnative, heq⟩
  · refine ⟨[], ?_⟩
    rw [stateAfter_error heq, himage, withNatives_nil]
  · refine ⟨[x.nativeFunction (w.session.ids.next w.image).1], ?_⟩
    rw [stateAfter_congr heq, Engine.defineFunction_extensions]
    exact addNative_extensions hnative.image

theorem extensions_of_register {x : Export} {modId : String} {w₁ w₂ : Workspace}
    (h : x.register strictness modId w₁ = .ok () w₂) :
    w₂.image.extensions =
        withNatives [x.nativeFunction (w₁.session.ids.next w₁.image).1] w₁.image.extensions ∧
      ∃ image, addNative w₁.image (x.nativeFunction (w₁.session.ids.next w₁.image).1) = some image := by
  rcases x.register_leaves strictness modId w₁ with ⟨e, w', heq, -⟩ | ⟨w', hnative, heq⟩
  · rw [heq] at h
    cases h
  · refine ⟨?_, w'.image, hnative.image⟩
    rw [← stateAfter_ok h, stateAfter_congr heq, Engine.defineFunction_extensions]
    exact addNative_extensions hnative.image

end Export

namespace Engine

open Export

variable {strictness : Strictness} {w : Workspace}

/-- Once there is a selector, operations declare native functions where exports are declared, and do
nothing else to extensions. -/
theorem after_extensions (hselector : selector ∈ w.image.nativeFunctions.map (·.name))
    (op : Operation) : ∃ fs, (op.after strictness w).image.extensions =
      withNatives fs w.image.extensions := by
  have hsame {image : Image} (h : image.extensions = w.image.extensions) :
      ∃ fs, image.extensions = withNatives fs w.image.extensions :=
    ⟨[], by rw [withNatives_nil, h]⟩
  cases op with
  | softHook => exact hsame (softHook_extensions _ _ _ _)
  | hardHook => exact hsame (hardHook_extensions _ _ _ _ _)
  | arityHook function source placeholder =>
    rcases arityHook_cases strictness w function source placeholder with
      ⟨-, heq⟩ | ⟨argc, -, heq⟩
    · exact hsame (by rw [Operation.after, stateAfter_error heq])
    · rw [Operation.after, stateAfter_congr heq]
      exact hsame (hardHook_extensions _ _ _ _ _)
  | editInnermost name edit =>
    rcases editInnermost_cases w name fun c ↦ ((), edit c) with heq | ⟨target, u, -, -, heq⟩
    · exact hsame (by rw [Operation.after, stateAfter_error heq])
    · exact hsame (by rw [Operation.after, stateAfter_ok heq]; rfl)
  | defineFunction => exact hsame (defineFunction_extensions _ _ _ _)
  | addSelector library =>
    have htaken : w.image.hasName selector :=
      Image.hasName_iff.mpr (List.mem_append_right _ hselector)
    exact hsame (by rw [Operation.after, stateAfter, Export.addSelector, if_pos htaken]; rfl)
  | registerExport x modId => exact x.register_extensions strictness modId w
  | applyRedirects => exact hsame (applyRedirects_extensions _)

theorem afterAll_extensions (hselector : selector ∈ w.image.nativeFunctions.map (·.name))
    (ops : List Operation) : ∃ fs, (afterAll strictness ops w).image.extensions =
      withNatives fs w.image.extensions := by
  induction ops generalizing w with
  | nil => exact ⟨[], (withNatives_nil _).symm⟩
  | cons op ops ih =>
    obtain ⟨fs, hfs⟩ : ∃ fs, (op.after strictness w).image.extensions = _ :=
      after_extensions hselector op
    obtain ⟨gs, hgs⟩ := ih (mem_names_of_withNatives hfs hselector)
    refine ⟨fs ++ gs, ?_⟩
    rw [withNatives_append, ← hfs]
    exact hgs

end Engine

namespace Export

open Engine

section Site

variable {strictness : Strictness} {w₁ : Workspace} {x : Export} {modId : String} {e : Extension}
  {before after : List Extension}

theorem find?_split (hextensions : w₁.image.extensions = before ++ e :: after)
    (hbefore : ∀ e' ∈ before, e'.name ≠ extensionName) (he : e.name = extensionName) :
    w₁.image.extensions.find? (·.name = extensionName) = some e := by
  rw [hextensions]
  refine List.find?_eq_some_iff_append.mpr ⟨decide_eq_true he, before, after, rfl, fun e' he' ↦ ?_⟩
  simpa using hbefore e' he'

theorem exists_register_ok (hextensions : w₁.image.extensions = before ++ e :: after)
    (hbefore : ∀ e' ∈ before, e'.name ≠ extensionName) (he : e.name = extensionName)
    (hlibraries : e.libraries ≠ []) (hselector : selector ∈ w₁.image.nativeFunctions.map (·.name))
    (hidentifier : isIdentifier x.name.toList) (hname : x.name ∉ w₁.image.names)
    (hnative : x.nativeName ∉ w₁.image.names) (strictness : Strictness) (modId : String) :
    ∃ w₂, x.register strictness modId w₁ = .ok () w₂ := by
  obtain ⟨l, ls, hlibraries⟩ := List.exists_cons_of_ne_nil hlibraries
  obtain ⟨_, _, -, -, hadd⟩ := addNative_eq (find?_split hextensions hbefore he) hlibraries
    (x.nativeFunction (w₁.session.ids.next w₁.image).1)
  have hleaves : x.LeavesNative w₁
      { image := _, session := { w₁.session with ids := (w₁.session.ids.next w₁.image).2 } } :=
    ⟨hadd, rfl⟩
  exact ⟨_, hleaves.register_ok (Image.isSome_nativeFunction?.mpr hselector) hidentifier hname hnative
    strictness modId⟩

theorem addNative_eq_none (hextensions : w₁.image.extensions = before ++ e :: after)
    (hbefore : ∀ e' ∈ before, e'.name ≠ extensionName) (he : e.name = extensionName)
    (hlibraries : e.libraries = []) (f : NativeFunction) : addNative w₁.image f = none := by
  have hfind := find?_split hextensions hbefore he
  obtain ⟨name, version, libraries⟩ := e
  obtain rfl : libraries = [] := hlibraries
  simp only [addNative, hfind]

theorem register_without_library (hextensions : w₁.image.extensions = before ++ e :: after)
    (hbefore : ∀ e' ∈ before, e'.name ≠ extensionName) (he : e.name = extensionName)
    (hlibraries : e.libraries = []) (hselector : selector ∈ w₁.image.nativeFunctions.map (·.name))
    (hnative : x.nativeName ∉ w₁.image.names) (strictness : Strictness) (modId : String) :
    ∃ w₂, x.register strictness modId w₁ = .error (.unknownName extensionName) w₂ := by
  have hadd := addNative_eq_none hextensions hbefore he hlibraries
  have hfree : ¬ w₁.image.hasName x.nativeName := mt Image.hasName_iff.mp hnative
  have hsome : ¬ (w₁.image.nativeFunction? selector).isNone := by
    rw [Option.isNone_iff_eq_none, ← ne_eq, Option.ne_none_iff_isSome]
    exact Image.isSome_nativeFunction?.mpr hselector
  simp only [register, if_neg hfree, if_neg hsome, hadd]
  exact ⟨_, rfl⟩

end Site

/-- Whether nothing but its library may stand in the way of an export. -/
structure IsFree (x : Export) (image : Image) : Prop where
  isIdentifier : isIdentifier x.name.toList
  name_free : x.name ∉ image.names
  native_free : x.nativeName ∉ image.names

/-- Where an export is declared, at any time after the selector of `library`. If the image had no
extension for exports before, each export that succeeds is declared behind the selector and behind the
native functions `fs` of the exports before it, in the one file `library`, while the extensions that
the image came with stay as they are; and an export succeeds if its names are free. If the image had
such an extension `e`, exports are declared in the first file of `e`, while the selector stays alone;
and if `e` has no file, each export fails for want of it. -/
theorem register_site {strictness : Strictness} {library : String} {w w₀ : Workspace}
    (h : addSelector library w = .ok () w₀) (ops : List Operation) :
    let w₁ := afterAll strictness ops w₀
    let selecting := selectorFunction (w.session.ids.next w.image).1
    ∃ fs, ∀ (x : Export) (modId : String),
      let native := x.nativeFunction (w₁.session.ids.next w₁.image).1
      ((∀ e ∈ w.image.extensions, e.name ≠ extensionName) →
        w₁.image.extensions = w.image.extensions ++ [dispatcher library (selecting :: fs)] ∧
        (∀ w₂, x.register strictness modId w₁ = .ok () w₂ → w₂.image.extensions =
          w.image.extensions ++ [dispatcher library (selecting :: (fs ++ [native]))]) ∧
        (x.IsFree w₁.image → ∃ w₂, x.register strictness modId w₁ = .ok () w₂)) ∧
      ∀ before e after, w.image.extensions = before ++ e :: after →
        (∀ e' ∈ before, e'.name ≠ extensionName) → e.name = extensionName →
        (∀ w₂, x.register strictness modId w₁ = .ok () w₂ → e.libraries ≠ [] ∧
          w₂.image.extensions = before ++ e.extended (fs ++ [native]) ::
            (after ++ [dispatcher library [selecting]])) ∧
        (e.libraries ≠ [] → x.IsFree w₁.image → ∃ w₂, x.register strictness modId w₁ = .ok () w₂) ∧
        (e.libraries = [] → x.nativeName ∉ w₁.image.names →
          ∃ w₂, x.register strictness modId w₁ = .error (.unknownName extensionName) w₂) := by
  intro w₁ selecting
  obtain ⟨hextensions, hselector⟩ := addSelector_eq_ok h
  obtain ⟨fs, hfs⟩ : ∃ fs, w₁.image.extensions = _ := afterAll_extensions hselector ops
  have hselector₁ := mem_names_of_withNatives hfs hselector
  rw [hextensions] at hfs
  refine ⟨fs, fun x modId ↦ ⟨fun hnone ↦ ?_, fun before e after hsplit hbefore he ↦ ?_⟩⟩
  · have hsite : w₁.image.extensions =
        w.image.extensions ++ [dispatcher library (selecting :: fs)] :=
      hfs.trans (withNatives_split hnone rfl fs [])
    refine ⟨hsite, fun w₂ hregister ↦ ?_, fun hfree ↦ ?_⟩
    · rw [(extensions_of_register hregister).1, hsite, withNatives_split hnone rfl]
      rfl
    · exact exists_register_ok hsite hnone rfl (List.cons_ne_nil _ _) hselector₁ hfree.isIdentifier
        hfree.name_free hfree.native_free strictness modId
  · have hname (gs : List NativeFunction) : (e.extended gs).name = extensionName :=
      (e.name_extended gs).trans he
    have hsite : w₁.image.extensions =
        before ++ e.extended fs :: (after ++ [dispatcher library [selecting]]) := by
      rw [hfs, hsplit, List.append_assoc, List.cons_append, withNatives_split hbefore he]
    have hlibraries : (e.extended fs).libraries = [] ↔ e.libraries = [] := by
      obtain ⟨name, version, libraries⟩ := e
      cases libraries <;> simp [Extension.extended]
    refine ⟨fun w₂ hregister ↦ ⟨fun hempty ↦ ?_, ?_⟩, fun hlibrary hfree ↦ ?_,
      fun hempty hnative ↦ ?_⟩
    · obtain ⟨-, image, hadd⟩ := extensions_of_register hregister
      rw [addNative_eq_none hsite hbefore (hname fs) (hlibraries.mpr hempty)] at hadd
      cases hadd
    · rw [(extensions_of_register hregister).1, hsite, withNatives_split hbefore (hname fs),
        ← Extension.extended_append]
    · exact exists_register_ok hsite hbefore (hname fs) (mt hlibraries.mp hlibrary) hselector₁
        hfree.isIdentifier hfree.name_free hfree.native_free strictness modId
    · exact register_without_library hsite hbefore (hname fs) (hlibraries.mpr hempty) hselector₁
        hnative strictness modId

def workWith (name : String) (files : List String) : Workspace where
  image := { extensions := [{ name, libraries := files.map fun file ↦ { file } }] }

theorem register_site_beside :
    ∃ w₀ w₂ id fs id', addSelector "interop" (workWith "sound" ["sound.dll"]) = .ok () w₀ ∧
      pointsExport.register .strict "m"
        (afterAll .strict [.registerExport scoreExport "m"] w₀) = .ok () w₂ ∧
      w₂.image.extensions = (workWith "sound" ["sound.dll"]).image.extensions ++
        [dispatcher "interop" (selectorFunction id :: (fs ++ [pointsExport.nativeFunction id']))] := by
  let w₀ := stateAfter (addSelector "interop") (workWith "sound" ["sound.dll"])
  let w₁ := afterAll .strict [.registerExport scoreExport "m"] w₀
  have h : addSelector "interop" (workWith "sound" ["sound.dll"]) = .ok () w₀ := rfl
  have hnone : ∀ e ∈ (workWith "sound" ["sound.dll"]).image.extensions, e.name ≠ extensionName := by
    decide
  have hnames : pointsExport.name ∉ w₁.image.names ∧ pointsExport.nativeName ∉ w₁.image.names := by
    decide +kernel
  have hfree : pointsExport.IsFree w₁.image := ⟨by decide, hnames.1, hnames.2⟩
  obtain ⟨fs, hsite⟩ := @register_site .strict _ _ _ h [.registerExport scoreExport "m"]
  obtain ⟨-, hextensions, hok⟩ := (hsite pointsExport "m").1 hnone
  obtain ⟨w₂, hregister⟩ := hok hfree
  exact ⟨w₀, w₂, _, fs, _, h, hregister, hextensions w₂ hregister⟩

/-- An image that has an extension of the name for exports without a selector: the first export is
declared in a file that came with the image, and if there is none, the export fails for want of it
although its names are free. -/
theorem register_apart_from_selector :
    (∃ w₀ w₂, addSelector "interop" (workWith extensionName ["game.dll"]) = .ok () w₀ ∧
      scoreExport.register .strict "m" w₀ = .ok () w₂ ∧
      w₂.image.extensions = [
        { name := extensionName,
          libraries := [{ file := "game.dll", functions := [scoreExport.nativeFunction 1] }] },
        dispatcher "interop" [selectorFunction 0]]) ∧
    ∃ w₀ w₂, addSelector "interop" (workWith extensionName []) = .ok () w₀ ∧
      scoreExport.IsFree w₀.image ∧
      scoreExport.register .strict "m" w₀ = .error (.unknownName extensionName) w₂ := by
  constructor
  · let w₀ := stateAfter (addSelector "interop") (workWith extensionName ["game.dll"])
    have hsucceeds : succeeds (scoreExport.register .strict "m") w₀ := by decide +kernel
    obtain ⟨_, w₂, hregister⟩ := succeeds_iff.mp hsucceeds
    exact ⟨w₀, w₂, rfl, hregister, (extensions_of_register hregister).1.trans rfl⟩
  · let w₀ := stateAfter (addSelector "interop") (workWith extensionName [])
    have hnames : scoreExport.name ∉ w₀.image.names ∧ scoreExport.nativeName ∉ w₀.image.names := by
      decide +kernel
    exact ⟨w₀, _, rfl, ⟨by decide, hnames.1, hnames.2⟩, rfl⟩

end Export

end HookPatch
