import HookPatch.Proofs.Engine.FailedExport
import HookPatch.Proofs.Engine.PassThrough
import HookPatch.Proofs.Session.Ids

namespace HookPatch

open Assembly ExtensionIds

theorem assemble_of_assemblesTo {source target : String} {body : List Instruction} {image : Image}
    (h : AssemblesTo source body) (hknown : ∀ i ∈ body, Knows image target i)
    (strictness : Strictness) : assemble strictness image target source = .ok body := by
  cases strictness with
  | lenient => exact h image target
  | strict => exact assemble_strict_iff.mpr ⟨h, hknown⟩

theorem Engine.defineFunction_eq {strictness : Strictness} {w : Workspace} {name source : String}
    {body : List Instruction} (hname : name ∉ w.image.names)
    (h : assemble strictness w.image name source = .ok body) (argc : UInt16) :
    defineFunction strictness name source argc w =
      .ok () { w with image := w.image.define name argc body } := by
  have hfree : ¬ w.image.hasName name := fun h ↦ hname (Image.hasName_iff.mp h)
  simp only [defineFunction, if_neg hfree, assembleFor, h, Except.mapError]

theorem Image.define_eq {image : Image} {name : String} (hname : name ∉ image.names) (argc : UInt16)
    (body : List Instruction) : image.define name argc body = {
      units := image.units ++ [{ name, body, arity := argc }]
      functions := image.functions ++ [{ name, code := some name }]
      extensions := image.extensions } := by
  rw [← define_units, ← define_functions hname argc body, ← define_extensions name argc body]

namespace Export

variable {x : Export} {image : Image} {modId : String}

theorem wrapperBody_eq (x : Export) (modId : String) : x.wrapperBody modId =
    [.pushString modId, .pushString x.symbol, .pushInt (Int64.ofNat x.argc.toNat), .call selector 3,
      .pop] ++ forwardBody x.nativeName x.argc := by
  rw [wrapperBody, forwardBody, List.append_assoc]

theorem reference_wrapperBody {i : Instruction} (hi : i ∈ x.wrapperBody modId) :
    ∀ name ∈ i.reference?, name = selector ∨ name = x.nativeName := by
  rw [wrapperBody_eq, List.mem_append] at hi
  rcases hi with hi | hi
  · simp only [List.mem_cons, List.not_mem_nil, or_false] at hi
    rcases hi with rfl | rfl | rfl | rfl | rfl
    · exact nofun
    · exact nofun
    · exact nofun
    · exact fun name hname ↦ .inl (Option.mem_some.mp hname).symm
    · exact nofun
  · exact fun name hname ↦ .inr (reference_forwardBody hi name hname)

theorem isIdentifier_nativeName (h : isIdentifier x.name.toList) :
    isIdentifier x.nativeName.toList := by
  rw [nativeName, String.toList_append]
  exact isIdentifier_append h (List.all_eq_true.mp (by decide))

/-- Mod and symbol are in literals, in which no character is left that ends one or a line. -/
theorem assemblesTo_wrapperText (h : isIdentifier x.name.toList) (modId : String) :
    AssemblesTo (x.wrapperText modId) (x.wrapperBody modId) := by
  refine assemblesTo_printed fun i hi name hname ↦ ?_
  rcases reference_wrapperBody hi name hname with rfl | rfl
  · decide
  · exact isIdentifier_nativeName h

theorem knows_wrapperBody (hselector : image.hasName selector) (hnative : image.hasName x.nativeName)
    (modId target : String) : ∀ i ∈ x.wrapperBody modId, Knows image target i := by
  intro i hi name hname
  rcases reference_wrapperBody hi name hname with rfl | rfl
  · exact .inr hselector
  · exact .inr hnative

theorem addNative_eq {e : Extension} {l : Library} {ls : List Library}
    (hfind : image.extensions.find? (·.name = extensionName) = some e)
    (hlibraries : e.libraries = l :: ls) (f : NativeFunction) :
    ∃ before after, image.extensions = before ++ e :: after ∧
      (∀ e' ∈ before, e'.name ≠ extensionName) ∧
      addNative image f = some { image with
        extensions := before ++
          { e with libraries := { l with functions := l.functions ++ [f] } :: ls } :: after } := by
  obtain ⟨hname, before, after, hsplit, hbefore⟩ := List.find?_eq_some_iff_append.mp hfind
  obtain ⟨name, version, libraries⟩ := e
  obtain rfl : libraries = l :: ls := hlibraries
  have hdiffers : ∀ e' ∈ before, ¬ decide (e'.name = extensionName) := fun e' he' ↦ by
    simpa using hbefore e' he'
  refine ⟨before, after, hsplit, fun e' he' h ↦ hdiffers e' he' (decide_eq_true h), ?_⟩
  simp only [addNative, hfind]
  rw [hsplit, modifyFirst_append_cons hdiffers hname]

variable {w w' : Workspace}

theorem LeavesNative.hasName (h : x.LeavesNative w w') {name : String}
    (hname : name = x.nativeName ∨ name ∈ w.image.nativeFunctions.map (·.name)) :
    w'.image.hasName name := by
  have hnatives := (addNative_spec h.image).2.2.map NativeFunction.name
  refine Image.hasName_iff.mpr (List.mem_append_right _ (hnatives.mem_iff.mpr ?_))
  exact List.mem_cons.mpr hname

theorem LeavesNative.name_free (h : x.LeavesNative w w') (hname : x.name ∉ w.image.names) :
    x.name ∉ w'.image.names :=
  fun hmem ↦ (h.mem_names hmem).elim x.name_ne_nativeName hname

theorem LeavesNative.register_ok (h : x.LeavesNative w w')
    (hselector : (w.image.nativeFunction? selector).isSome) (hidentifier : isIdentifier x.name.toList)
    (hname : x.name ∉ w.image.names) (hnative : x.nativeName ∉ w.image.names)
    (strictness : Strictness) (modId : String) :
    x.register strictness modId w =
      .ok () { w' with image := w'.image.define x.name x.argc (x.wrapperBody modId) } := by
  have hcalled := h.hasName (.inr (Image.isSome_nativeFunction?.mp hselector))
  have hknown := knows_wrapperBody hcalled (h.hasName (.inl rfl)) modId x.name
  have hassembles := assemblesTo_wrapperText hidentifier modId
  rw [h.register_eq hnative hselector]
  exact Engine.defineFunction_eq (h.name_free hname)
    (assemble_of_assemblesTo hassembles hknown strictness) x.argc

/-- An export adds its wrapper with the body that is spelled out here, the declaration of that, and
its native function with the next free id, and changes nothing else. -/
theorem register_exact {id : UInt32} {e : Extension} {l : Library} {ls : List Library}
    (hselector : (w.image.nativeFunction? selector).isSome)
    (hextension : w.image.extensions.find? (·.name = extensionName) = some e)
    (hlibraries : e.libraries = l :: ls) (hid : Search w.image.nativeIds w.session.ids.cursor id)
    (hidentifier : isIdentifier x.name.toList) (hname : x.name ∉ w.image.names)
    (hnative : x.nativeName ∉ w.image.names) (strictness : Strictness) (modId : String) :
    ∃ before after, w.image.extensions = before ++ e :: after ∧
      (∀ e' ∈ before, e'.name ≠ extensionName) ∧ id ∉ w.image.nativeIds ∧
      x.register strictness modId w = .ok () {
        image := {
          units := w.image.units ++ [{
            name := x.name
            body := [.pushString modId, .pushString x.symbol, .pushInt (Int64.ofNat x.argc.toNat),
                .call "interop_set_function" 3, .pop] ++
              (List.range x.argc.toNat).map (fun i ↦ .pushArgument (UInt16.ofNat i)) ++
              [.call (x.name ++ "_interop") x.argc, .ret]
            arity := x.argc }]
          functions := w.image.functions ++ [{ name := x.name, code := some x.name }]
          extensions := before ++ { e with
            libraries := { l with
              functions := l.functions ++ [{
                name := x.name ++ "_interop"
                symbol := "interop_function"
                kind := 11
                id
                argc := x.argc }] } :: ls } :: after }
        session := { w.session with ids := { cursor := id + 1 } } } := by
  obtain ⟨before, after, hsplit, hbefore, hadd⟩ :=
    addNative_eq hextension hlibraries (x.nativeFunction id)
  have hnext := hid.next_eq
  let w' : Workspace := {
    image := { w.image with
      extensions := before ++ { e with
        libraries := { l with functions := l.functions ++ [x.nativeFunction id] } :: ls } :: after }
    session := { w.session with ids := { cursor := id + 1 } } }
  have hleaves : x.LeavesNative w w' := ⟨by rw [hnext]; exact hadd, by rw [hnext]⟩
  refine ⟨before, after, hsplit, hbefore, hid.spec.2.1, ?_⟩
  rw [hleaves.register_ok hselector hidentifier hname hnative,
    Image.define_eq (hleaves.name_free hname)]
  rfl

def pointsExport : Export := { name := "points", argc := 2, symbol := "on; \"points\"\u0085\r\n" }

theorem register_exact_points :
    ∃ w', pointsExport.register .strict "m;\t\\" scoreWork = .ok () w' ∧
      w'.image.units = [{ name := "score" }, {
        name := "points"
        body := [.pushString "m;\t\\", .pushString "on; \"points\"\u0085\r\n", .pushInt 2,
          .call "interop_set_function" 3, .pop, .pushArgument 0, .pushArgument 1,
          .call "points_interop" 2, .ret]
        arity := 2 }] ∧
      w'.session.ids = { cursor := 2 } := by
  let function : NativeFunction :=
    { name := selector, symbol := selector, kind := nativeKind, id := 0, argc := 3 }
  let library : Library := { file := "interop", functions := [function] }
  have hextension : scoreWork.image.extensions.find? (·.name = extensionName) =
      some { name := extensionName, version := extensionVersion, libraries := [library] } := by
    decide +kernel
  have hid : Search scoreWork.image.nativeIds scoreWork.session.ids.cursor 1 :=
    .free (by decide +kernel)
  obtain ⟨before, after, -, -, -, h⟩ := register_exact (x := pointsExport) (by decide +kernel)
    hextension rfl hid (by decide) (by decide +kernel) (by decide +kernel) .strict "m;\t\\"
  exact ⟨_, h, rfl, rfl⟩

end Export

end HookPatch
