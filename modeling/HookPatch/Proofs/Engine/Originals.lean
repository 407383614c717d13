import HookPatch.Proofs.Engine.BadSource
import HookPatch.Proofs.Engine.PassThrough
import HookPatch.Proofs.Engine.Simultaneous

namespace HookPatch

namespace HookChains

/-- Whether the way down from a unit, always on to the innermost preserved unit, ends at `bottom`. -/
inductive Descends (h : HookChains) : String → String → Prop
  | here {name : String} : h.innermost? name = none → Descends h name name
  | down {name p bottom : String} : h.innermost? name = some p → Descends h p bottom →
      Descends h name bottom

variable {h : HookChains} {code fresh name bottom : String}

theorem innermost?_eq_none (hchain : h.chain name = []) : h.innermost? name = none := by
  rw [innermost?, hchain, List.head?_nil]

theorem innermost?_record (h : HookChains) (code fresh name : String) :
    (h.record code fresh).innermost? name =
      if name = code then some ((h.innermost? code).getD fresh) else h.innermost? name := by
  rw [innermost?, chain_record]
  split
  · rw [List.head?_append, innermost?]
    cases (h.chain code).head? <;> rfl
  · rfl

theorem latest?_record (h : HookChains) (code fresh name : String) :
    (h.record code fresh).latest? name = if name = code then some fresh else h.latest? name := by
  rw [latest?, chain_record]
  split
  · exact List.getLast?_concat
  · rfl

/-- The first hook of a unit adds a step to every way that has ended there. -/
theorem Descends.record (hdescends : h.Descends name bottom) (hne : fresh ≠ code)
    (hfresh : h.innermost? fresh = none) :
    (h.record code fresh).Descends name (if bottom = code then fresh else bottom) := by
  induction hdescends with
  | @here name hnone =>
    split
    · rename_i hname
      refine .down ?_ (.here ?_)
      · rw [innermost?_record, if_pos hname, ← hname, hnone, Option.getD_none]
      · rw [innermost?_record, if_neg hne, hfresh]
    · rename_i hname
      refine .here ?_
      rw [innermost?_record, if_neg hname, hnone]
  | @down name p bottom hsome _ ih =>
    refine .down ?_ ih
    rw [innermost?_record]
    split
    · rename_i hname
      rw [← hname, hsome, Option.getD_some]
    · exact hsome

theorem Descends.eq_innermost (hdescends : h.Descends name bottom)
    (hnone : h.innermost? ((h.innermost? name).getD name) = none) :
    bottom = (h.innermost? name).getD name := by
  cases hdescends with
  | here hname => rw [hname, Option.getD_none]
  | down hsome hrest =>
    rw [hsome, Option.getD_some] at hnone ⊢
    cases hrest with
    | here _ => rfl
    | down hnext _ =>
      rw [hnone] at hnext
      cases hnext

end HookChains

namespace Engine

open Assembly

def Operation.Hooks (strictness : Strictness) : Operation → Workspace → Prop
  | softHook code source placeholder, w =>
    succeeds (Engine.softHook strictness code source placeholder) w
  | _, _ => False

def HooksAll (strictness : Strictness) : List Operation → Workspace → Prop
  | [], _ => True
  | op :: ops, w => op.Hooks strictness w ∧ HooksAll strictness ops (op.after strictness w)

instance (strictness : Strictness) (w : Workspace) :
    ∀ op : Operation, Decidable (op.Hooks strictness w)
  | .softHook code source placeholder =>
    inferInstanceAs (Decidable (succeeds (softHook strictness code source placeholder) w))
  | .hardHook .. | .arityHook .. | .editInnermost .. | .defineFunction .. | .addSelector ..
  | .registerExport .. | .applyRedirects => inferInstanceAs (Decidable False)

instance decidableHooksAll (strictness : Strictness) :
    ∀ (ops : List Operation) (w : Workspace), Decidable (HooksAll strictness ops w)
  | [], _ => inferInstanceAs (Decidable True)
  | op :: ops, w =>
    have := decidableHooksAll strictness ops (op.after strictness w)
    inferInstanceAs (Decidable (
      op.Hooks strictness w ∧ HooksAll strictness ops (op.after strictness w)))

end Engine

open Assembly

/-- A workspace that soft hooks have made of an image, of which `hooks name` are those of the unit
`name`, in order. -/
structure Workspace.Hooked (image : Image) (hooks : String → List (String × String))
    (w : Workspace) : Prop where
  units_nodup : (w.image.units.map (·.name)).Nodup
  unhooked : ∀ name, hooks name = [] → w.session.hooks.chain name = []
  hooked : ∀ name source placeholder, (hooks name).getLast? = some (source, placeholder) →
    ∃ p body argc, w.session.hooks.latest? name = some p ∧
      w.image.code.lookup name = some (body, argc) ∧
      AssemblesTo (substitute placeholder p source) body
  original : ∀ u ∈ image.units, ∃ bottom, w.session.hooks.Descends u.name bottom ∧
    w.image.code.lookup bottom = some (u.body, u.arity)

namespace Workspace.Hooked

open Engine

variable {image : Image} {hooks : String → List (String × String)} {w : Workspace}

theorem initial (hnodup : (image.units.map (·.name)).Nodup) :
    Hooked image (fun _ ↦ []) { image } where
  units_nodup := hnodup
  unhooked name _ := by simp [HookChains.chain]
  hooked name source placeholder hlast := by cases hlast
  original u hu := by
    have hunit := (Image.unit?_eq_some_iff hnodup).mpr ⟨hu, rfl⟩
    exact ⟨u.name, .here rfl, by rw [Image.lookup_code, hunit]; rfl⟩

theorem chain_eq_nil (h : w.Hooked image hooks) {name : String}
    (hname : name ∉ w.image.units.map (·.name)) : w.session.hooks.chain name = [] := by
  refine h.unhooked name ?_
  by_contra hne
  obtain ⟨-, body, argc, -, hlookup, -⟩ :=
    h.hooked name _ _ (List.getLast?_eq_some_getLast hne)
  exact hname (Image.mem_names_of_lookup_code hlookup)

theorem hook (h : w.Hooked image hooks) {strictness : Strictness} {code source placeholder : String}
    (hspare : (w.image.unit? code).isSome → w.image.HasSpareName code "orig")
    (hsucceeds : succeeds (softHook strictness code source placeholder) w) :
    (stateAfter (softHook strictness code source placeholder) w).Hooked image
      fun name ↦ hooks name ++ if code = name then [(source, placeholder)] else [] := by
  obtain ⟨w', n, fresh, body, old, argc, heq, -, hfresh, hold, hbody, hlookup, -, hchains, hnodup⟩ :=
    softHook_lookup h.units_nodup hspare hsucceeds
  have hunit := (Image.not_mem_names.mp hfresh).1
  have hne : fresh ≠ code := by
    rintro rfl
    exact hunit (Image.mem_names_of_lookup_code hold)
  have hother : ∀ {name : String} {c : List Instruction × UInt16}, name ≠ code →
      w.image.code.lookup name = some c → w'.image.code.lookup name = some c := by
    intro name c hcode hname
    have hnew : name ≠ fresh := by
      rintro rfl
      exact hunit (Image.mem_names_of_lookup_code hname)
    rw [hlookup, if_neg hcode, if_neg hnew, hname]
  rw [heq]
  constructor
  · exact hnodup
  · intro name hname
    obtain ⟨hhooks, hrest⟩ := List.append_eq_nil_iff.mp hname
    have hcode : name ≠ code := by
      rintro rfl
      rw [if_pos rfl] at hrest
      cases hrest
    rw [hchains, HookChains.chain_record, if_neg hcode]
    exact h.unhooked name hhooks
  · intro name source' placeholder' hlast
    rw [hchains, HookChains.latest?_record]
    by_cases hcode : name = code
    · subst hcode
      rw [if_pos rfl, List.getLast?_concat] at hlast
      cases hlast
      exact ⟨fresh, body, argc, if_pos rfl, by rw [hlookup, if_pos rfl], hbody⟩
    · rw [if_neg (Ne.symm hcode), List.append_nil] at hlast
      obtain ⟨p, body', argc', hlatest, hname, hassembles⟩ :=
        h.hooked name source' placeholder' hlast
      exact ⟨p, body', argc', (if_neg hcode).trans hlatest, hother hcode hname, hassembles⟩
  · intro u hu
    obtain ⟨bottom, hdescends, hbottom⟩ := h.original u hu
    refine ⟨_, hchains ▸ hdescends.record hne
      (HookChains.innermost?_eq_none (h.chain_eq_nil hunit)), ?_⟩
    split
    · rename_i hcode
      rw [hlookup, if_neg hne, if_pos rfl, ← hold, ← hcode, hbottom]
    · rename_i hcode
      exact hother hcode hbottom

/-- What stands in the unit one step down from a unit of the image. -/
theorem innermost (h : w.Hooked image hooks) {u : CodeUnit} (hu : u ∈ image.units) {target : String}
    (htarget : target = (w.session.hooks.innermost? u.name).getD u.name) :
    ∃ v, w.image.unit? target = some v ∧ (hooks target = [] → v.body = u.body) ∧
      ∀ source placeholder, (hooks target).getLast? = some (source, placeholder) →
        ∃ p, w.session.hooks.latest? target = some p ∧
          AssemblesTo (substitute placeholder p source) v.body := by
  cases hlast : (hooks target).getLast? with
  | none =>
    have hnone := HookChains.innermost?_eq_none
      (h.unhooked target (List.getLast?_eq_none_iff.mp hlast))
    obtain ⟨bottom, hdescends, hbottom⟩ := h.original u hu
    obtain rfl : bottom = target := htarget ▸ hdescends.eq_innermost (htarget ▸ hnone)
    obtain ⟨v, hv, hbody, -⟩ := Image.unit?_of_lookup_code hbottom
    exact ⟨v, hv, fun _ ↦ hbody, nofun⟩
  | some hook =>
    obtain ⟨source, placeholder⟩ := hook
    obtain ⟨p, body, argc, hlatest, hlookup, hassembles⟩ := h.hooked target source placeholder hlast
    obtain ⟨v, hv, rfl, -⟩ := Image.unit?_of_lookup_code hlookup
    refine ⟨v, hv, fun hnil ↦ ?_, ?_⟩
    · rw [hnil] at hlast
      cases hlast
    · rintro _ _ ⟨⟩
      exact ⟨p, hlatest, hassembles⟩

end Workspace.Hooked

namespace Engine

variable {strictness : Strictness} {image : Image} {w w' : Workspace}

theorem editInnermost_eq_ok (hnodup : (w.image.units.map (·.name)).Nodup) {name target : String}
    (htarget : target = (w.session.hooks.innermost? name).getD name) {v : CodeUnit}
    (hv : w.image.unit? target = some v) {α : Type} (edit : Cursor → α × Cursor) :
    editInnermost name edit w = .ok (edit { code := v.body }).1 { w with
      image := { w.image with
        units := w.image.units.map fun x ↦
          if x.name = target then x.withBody (edit { code := v.body }).2.code else x } } := by
  rw [← Image.modifyUnit_units hnodup target (·.withBody (edit { code := v.body }).2.code)]
  subst htarget
  simp only [editInnermost, hv]
  rfl

theorem Run.hooked {ops : List Operation} (hrun : Run strictness ops w w')
    (hhooks : HooksAll strictness ops w) {hooks : String → List (String × String)}
    (h : w.Hooked image hooks) :
    w'.Hooked image fun name ↦ hooks name ++ ops.flatMap (·.hooksOf name) := by
  induction hrun generalizing hooks with
  | nil => simpa using h
  | @cons op ops _ _ hreturns _ ih =>
    obtain ⟨hop, hrest⟩ := hhooks
    cases op with
    | softHook code source placeholder =>
      have hnext := ih hrest (h.hook hreturns hop)
      simpa only [List.flatMap_cons, List.append_assoc, Operation.hooksOf] using hnext
    | hardHook => exact hop.elim
    | arityHook => exact hop.elim
    | editInnermost => exact hop.elim
    | defineFunction => exact hop.elim
    | addSelector => exact hop.elim
    | registerExport => exact hop.elim
    | applyRedirects => exact hop.elim

/-- After any soft hooks an edit of a unit works on the body one step down, and changes no other. It is
the body that the unit had at first if the unit found there has not been hooked, and otherwise what
its last hook has put there, while the body from before all hooks is at the bottom. -/
theorem run_editInnermost (hnodup : (image.units.map (·.name)).Nodup) {u : CodeUnit}
    (hu : u ∈ image.units) {ops : List Operation} (hrun : Run strictness ops { image } w)
    (hhooks : HooksAll strictness ops { image }) :
    let target := (w.session.hooks.innermost? u.name).getD u.name
    ∃ v, w.image.unit? target = some v ∧
      (∀ (α : Type) (edit : Cursor → α × Cursor),
        editInnermost u.name edit w = .ok (edit { code := v.body }).1 { w with
          image := { w.image with
            units := w.image.units.map fun x ↦
              if x.name = target then x.withBody (edit { code := v.body }).2.code else x } }) ∧
      (ops.flatMap (·.hooksOf target) = [] → v.body = u.body) ∧
      (∀ source placeholder,
        (ops.flatMap (·.hooksOf target)).getLast? = some (source, placeholder) →
          ∃ p, w.session.hooks.latest? target = some p ∧
            AssemblesTo (substitute placeholder p source) v.body) ∧
      ∃ bottom p, w.session.hooks.Descends u.name bottom ∧ w.image.unit? bottom = some p ∧
        p.body = u.body := by
  intro target
  have h := hrun.hooked hhooks (.initial hnodup)
  obtain ⟨v, hv, horiginal, hlast⟩ := h.innermost hu (rfl : target = _)
  obtain ⟨bottom, hdescends, hbottom⟩ := h.original u hu
  obtain ⟨p, hp, hbody, -⟩ := Image.unit?_of_lookup_code hbottom
  exact ⟨v, hv, fun α edit ↦ editInnermost_eq_ok h.units_nodup rfl hv edit, horiginal, hlast,
    bottom, p, hdescends, hp, hbody⟩

def nestedHooks : List Operation :=
  [.softHook "part" "ret" "#orig#", .softHook "main" "ret" "#orig#",
    .softHook "__hook_main_orig_2" "exit" "#orig#"]

theorem run_editInnermost_nested :
    ∃ w, Run .strict nestedHooks { image := aritiesImage } w ∧
      HooksAll .strict nestedHooks { image := aritiesImage } ∧
      value? (editInnermost "part" fun c ↦ (c.code, c)) w = some [.call "f" 1] ∧
      value? (editInnermost "main" fun c ↦ (c.code, c)) w = some [.exit] ∧
      ∃ bottom p, w.session.hooks.Descends "main" bottom ∧ w.image.unit? bottom = some p ∧
        p.body = [.call "f" 1, .call "f" 2, .pushFunction "f"] := by
  have hwf := fresh_wellFormed aritiesImage_wellFormed
  have hrun : Run .strict nestedHooks { image := aritiesImage } _ := run_afterAll hwf (by decide)
  have hhooks : HooksAll .strict nestedHooks { image := aritiesImage } := by decide +kernel
  have hpart : ({ name := "part", body := [.call "f" 1], parent := some "main" } : CodeUnit) ∈
    aritiesImage.units := by decide
  have hmain : ({
      name := "main", body := [.call "f" 1, .call "f" 2, .pushFunction "f"],
      children := ["part"] } : CodeUnit) ∈ aritiesImage.units := by decide
  refine ⟨_, hrun, hhooks, ?_, ?_⟩
  · obtain ⟨v, -, hedit, horiginal, -⟩ :=
      run_editInnermost hwf.image.units_nodup hpart hrun hhooks
    rw [value?, hedit]
    exact congrArg some (horiginal (by decide +kernel))
  · obtain ⟨v, -, hedit, -, hlast, hbottom⟩ :=
      run_editInnermost hwf.image.units_nodup hmain hrun hhooks
    refine ⟨?_, hbottom⟩
    obtain ⟨p, hp, hassembles⟩ := hlast "exit" "#orig#" (by decide +kernel)
    have hexit : assemble .lenient {} "" (substitute "#orig#" p "exit") = .ok [.exit] := by
      obtain rfl : p = "__hook___hook_main_orig_2_orig_3" :=
        Option.some.inj (hp.symm.trans (by decide +kernel))
      decide +kernel
    rw [value?, hedit]
    exact congrArg some (Except.ok.inj ((hassembles {} "").symm.trans hexit))

/-- The unit gives one at first, but the edit works on the hook of the unit that holds this body. -/
theorem run_editInnermost_hook :
    ∃ w, Run .strict [.softHook "main" "ret" "#orig#",
        .softHook "__hook_main_orig_1" "exit" "#orig#"] { image := oneImage } w ∧
      HooksAll .strict [.softHook "main" "ret" "#orig#",
        .softHook "__hook_main_orig_1" "exit" "#orig#"] { image := oneImage } ∧
      (oneImage.unit? "main").map (·.body) = some [.pushInt 1, .ret] ∧
      value? (editInnermost "main" fun c ↦ (c.code, c)) w = some [.exit] := by
  have hwf : Workspace.WellFormed { image := oneImage } := fresh_wellFormed (by decide)
  exact ⟨_, run_afterAll hwf (by decide), by decide +kernel, by decide, by decide +kernel⟩

end Engine

end HookPatch
