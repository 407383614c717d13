import HookPatch.Engine.Export
import HookPatch.Proofs.Assembly.Strictness
import HookPatch.Proofs.Image.Units
import HookPatch.Proofs.Outcomes

namespace HookPatch

namespace Engine

open Assembly

inductive Operation
  | softHook (code source placeholder : String)
  | hardHook (function source : String) (argc : UInt16) (placeholder : String)
  | arityHook (function source placeholder : String)
  | editInnermost (name : String) (edit : Cursor → Cursor)
  | defineFunction (name source : String) (argc : UInt16)
  | addSelector (library : String)
  | registerExport (x : Export) (modId : String)
  | applyRedirects

def Operation.after (strictness : Strictness) : Operation → Workspace → Workspace
  | softHook code source placeholder =>
    stateAfter (Engine.softHook strictness code source placeholder)
  | hardHook function source argc placeholder =>
    stateAfter (Engine.hardHook strictness function source argc placeholder)
  | arityHook function source placeholder =>
    stateAfter (Engine.arityHook strictness function source placeholder)
  | editInnermost name edit => stateAfter (Engine.editInnermost name fun c ↦ ((), edit c))
  | defineFunction name source argc =>
    stateAfter (Engine.defineFunction strictness name source argc)
  | addSelector library => stateAfter (Export.addSelector library)
  | registerExport x modId => stateAfter (x.register strictness modId)
  | applyRedirects => stateAfter Engine.applyRedirects

/-- Whether an operation comes back. One that has to generate a name goes on searching until it finds
a free one. -/
def Operation.Returns : Operation → Workspace → Prop
  | softHook code _ _, w => (w.image.unit? code).isSome → w.image.HasSpareName code "orig"
  | hardHook function _ _ _, w =>
    w.image.isCallable function → w.image.HasSpareName function "hook"
  | arityHook function _ _, w =>
    (w.image.arity? function).isSome → w.image.isCallable function →
      w.image.HasSpareName function "hook"
  | _, _ => True

inductive Run (strictness : Strictness) : List Operation → Workspace → Workspace → Prop
  | nil (w : Workspace) : Run strictness [] w w
  | cons {op : Operation} {ops : List Operation} {w w' : Workspace} :
      op.Returns w → Run strictness ops (op.after strictness w) w' →
      Run strictness (op :: ops) w w'

theorem assemblesTo_of_assembleFor {strictness : Strictness} {image : Image} {target source : String}
    {body : List Instruction} (h : assembleFor strictness image target source = .ok body) :
    AssemblesTo source body := by
  rw [assembleFor] at h
  cases hassemble : assemble strictness image target source with
  | error e => rw [hassemble] at h; cases h
  | ok body' =>
    rw [hassemble] at h
    cases h
    exact assemblesTo_of_ok hassemble

variable (strictness : Strictness) (w : Workspace)

theorem softHook_cases (code source placeholder : String) :
    (w.image.unit? code = none ∧
      softHook strictness code source placeholder w = .error (.unknownName code) w) ∨
    ∃ l₁ u l₂ preserved moved, w.image.unit? code = some u ∧ u.name = code ∧
      w.image.units = l₁ ++ u :: l₂ ∧ w.preserve l₁.length u = (preserved, moved) ∧
      ((∃ e, assembleFor strictness moved.image code (substitute placeholder preserved source) =
          .error e ∧ softHook strictness code source placeholder w = .error e moved) ∨
        ∃ body, assembleFor strictness moved.image code (substitute placeholder preserved source) =
          .ok body ∧ softHook strictness code source placeholder w =
            .ok preserved { moved with image := moved.image.setBody l₁.length body }) := by
  cases hu : w.image.unit? code with
  | none => exact .inl ⟨rfl, by simp only [softHook, hu]; split <;> simp_all⟩
  | some u =>
    obtain ⟨l₁, l₂, hunits, hname, hindex⟩ := Image.exists_split hu
    obtain ⟨preserved, moved, hmove⟩ : ∃ p m, w.preserve l₁.length u = (p, m) := ⟨_, _, rfl⟩
    refine .inr ⟨l₁, u, l₂, preserved, moved, rfl, hname, hunits, hmove, ?_⟩
    simp only [softHook, hu, hindex, hmove]
    cases h : assembleFor strictness moved.image code (substitute placeholder preserved source) with
    | error e => exact .inl ⟨e, rfl, rfl⟩
    | ok body => exact .inr ⟨body, rfl, rfl⟩

/-- What the placeholder of a hard hook stands for: the function, or its previous hard hook. -/
def wrapped (redirects : Redirects) (function : String) : String :=
  ((redirects.get? function).map (·.replacement)).getD function

theorem hardHook_cases (function source : String) (argc : UInt16) (placeholder : String) :
    (¬ w.image.isCallable function ∧
      hardHook strictness function source argc placeholder w = .error (.unknownName function) w) ∨
    ∃ name names, w.image.isCallable function ∧
      w.session.names.next w.image function "hook" = (name, names) ∧
      ((∃ e, hardHook strictness function source argc placeholder w =
          .error e { w with session := { w.session with names } }) ∨
        ∃ body, assembleFor strictness w.image name
            (substitute placeholder (wrapped w.session.redirects function) source) = .ok body ∧
          hardHook strictness function source argc placeholder w = .ok name {
            image := w.image.define name argc body
            session := {
              w.session with
              names
              redirects := w.session.redirects.insert function { replacement := name, argc } } }) := by
  by_cases hcall : w.image.isCallable function
  · obtain ⟨name, names, hnext⟩ :
      ∃ n g, w.session.names.next w.image function "hook" = (n, g) := ⟨_, _, rfl⟩
    refine .inr ⟨name, names, hcall, hnext, ?_⟩
    simp only [hardHook, hcall, if_true, hnext, wrapped]
    cases h : assembleFor strictness w.image name (substitute placeholder
        (((w.session.redirects.get? function).map (·.replacement)).getD function) source) with
    | error e => exact .inl ⟨e, rfl⟩
    | ok body => exact .inr ⟨body, rfl, rfl⟩
  · exact .inl ⟨hcall, by simp [hardHook, hcall]⟩

theorem arityHook_cases (function source placeholder : String) :
    (w.image.arity? function = none ∧
      arityHook strictness function source placeholder w = .error (.unknownName function) w) ∨
    ∃ argc, w.image.arity? function = some argc ∧
      arityHook strictness function source placeholder w =
        hardHook strictness function source argc placeholder w := by
  cases h : w.image.arity? function with
  | none => exact .inl ⟨rfl, by simp only [arityHook, h]⟩
  | some argc => exact .inr ⟨argc, rfl, by simp only [arityHook, h]⟩

theorem editInnermost_cases {α : Type} (name : String) (edit : Cursor → α × Cursor) :
    editInnermost name edit w = .error (.unknownName name) w ∨
    ∃ target u, target = (w.session.hooks.innermost? name).getD name ∧
      w.image.unit? target = some u ∧
      editInnermost name edit w = .ok (edit { code := u.body }).1 {
        w with
        image := w.image.modifyUnit target (·.withBody (edit { code := u.body }).2.code) } := by
  cases h : w.image.unit? ((w.session.hooks.innermost? name).getD name) with
  | none => exact .inl (by simp only [editInnermost, h])
  | some u => exact .inr ⟨_, u, rfl, h, by simp only [editInnermost, h]; rfl⟩

theorem defineFunction_cases (name source : String) (argc : UInt16) :
    (∃ e, defineFunction strictness name source argc w = .error e w) ∨
    ∃ body, name ∉ w.image.names ∧ assembleFor strictness w.image name source = .ok body ∧
      defineFunction strictness name source argc w =
        .ok () { w with image := w.image.define name argc body } := by
  by_cases hname : w.image.hasName name
  · exact .inl ⟨.nameTaken name, by simp only [defineFunction, hname, if_true]⟩
  · have hfree : name ∉ w.image.names := fun h ↦ hname (Image.hasName_iff.mpr h)
    simp only [defineFunction, hname]
    cases h : assembleFor strictness w.image name source with
    | error e => exact .inl ⟨e, rfl⟩
    | ok body => exact .inr ⟨body, hfree, rfl, rfl⟩

theorem addSelector_cases (library : String) :
    (Export.addSelector library w = .error (.nameTaken Export.selector) w) ∨
    ∃ extension function ids, Export.selector ∉ w.image.names ∧
      extension.functions = [function] ∧ function.name = Export.selector ∧
      Export.addSelector library w =
        .ok () { image := w.image.addExtension extension, session := { w.session with ids } } := by
  by_cases hname : w.image.hasName Export.selector
  · exact .inl (by simp only [Export.addSelector, hname, if_true])
  · obtain ⟨id, ids, hids⟩ : ∃ i g, w.session.ids.next w.image = (i, g) := ⟨_, _, rfl⟩
    let function : NativeFunction :=
      { name := Export.selector, symbol := Export.selector, kind := Export.nativeKind, id, argc := 3 }
    refine .inr ⟨{
        name := Export.extensionName, version := Export.extensionVersion,
        libraries := [{ file := library, functions := [function] }] },
      function, ids, fun h ↦ hname (Image.hasName_iff.mpr h), rfl, rfl, ?_⟩
    simp only [Export.addSelector, hname, hids]
    rfl

theorem register_cases (x : Export) (modId : String) :
    (∃ e ids, x.register strictness modId w = .error e { w with session := { w.session with ids } }) ∨
    ∃ function image ids, x.nativeName ∉ w.image.names ∧ function.name = x.nativeName ∧
      Export.addNative w.image function = some image ∧
      x.register strictness modId w = defineFunction strictness x.name (x.wrapperText modId) x.argc
        { image, session := { w.session with ids } } := by
  by_cases hname : w.image.hasName x.nativeName
  · exact .inl ⟨.nameTaken x.nativeName, w.session.ids, by
      simp only [Export.register, hname, if_true]⟩
  have hfree : x.nativeName ∉ w.image.names := fun h ↦ hname (Image.hasName_iff.mpr h)
  by_cases hselector : (w.image.nativeFunction? Export.selector).isNone
  · exact .inl ⟨.unknownName Export.selector, w.session.ids, by
      simp only [Export.register, hname, hselector, if_true]; rfl⟩
  obtain ⟨id, ids, hids⟩ : ∃ i g, w.session.ids.next w.image = (i, g) := ⟨_, _, rfl⟩
  simp only [Export.register, hname, hselector, hids]
  cases h : Export.addNative w.image {
      name := x.nativeName, symbol := Export.dispatchSymbol, kind := Export.nativeKind, id,
      argc := x.argc } with
  | none => exact .inl ⟨.unknownName Export.extensionName, ids, rfl⟩
  | some image => exact .inr ⟨_, image, ids, hfree, rfl, h, rfl⟩

theorem applyRedirects_cases :
    (∃ result, applyRedirects w = .ok result
      { w with session := { w.session with redirects := .empty } }) ∨
    (∃ e, applyRedirects w = .error e { w with session := { w.session with redirects := .empty } }) ∨
    ∃ count image, redirectImage w.session.redirects w.image = .ok (count, image) ∧
      applyRedirects w =
        .ok count { image, session := { w.session with redirects := .empty } } := by
  by_cases hempty : w.session.redirects.entries.isEmpty
  · exact .inl ⟨0, by simp only [applyRedirects, hempty, if_true]⟩
  · simp only [applyRedirects, hempty]
    cases h : redirectImage w.session.redirects w.image with
    | error e => exact .inr (.inl ⟨e, rfl⟩)
    | ok result => exact .inr (.inr ⟨result.1, result.2, rfl, rfl⟩)

end Engine

end HookPatch
