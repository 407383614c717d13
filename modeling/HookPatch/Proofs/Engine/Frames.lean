import HookPatch.Proofs.Engine.Recording
import HookPatch.Proofs.Image.Code

namespace HookPatch

namespace Workspace

/-- All members of chains are units. -/
def Housed (w : Workspace) : Prop :=
  ∀ name, ∀ p ∈ w.session.hooks.chain name, p ∈ w.image.units.map (·.name)

def StandsApart (w : Workspace) (name : String) : Prop :=
  name ∈ w.image.units.map (·.name) ∧ ∀ other, name ∉ w.session.hooks.chain other

theorem housed_of_fresh (image : Image) : Housed { image } := by
  intro name p hp
  simp [HookChains.chain] at hp

end Workspace

namespace Engine

open Assembly Workspace

variable {strictness : Strictness} {w w' : Workspace} {name : String}

def Operation.target? : Operation → Option String
  | softHook name _ _ | hardHook name _ _ _ | arityHook name _ _ | editInnermost name _ => some name
  | _ => none

/-- All that operations do to the code, the functions and the chains, redirections apart: a unit is
defined, a body is edited, or a soft hook moves a body. -/
inductive Changes (op : Operation) (w w' : Workspace) : Prop
  | keep : w'.image.code = w.image.code → w'.image.functions = w.image.functions →
      w'.session.hooks = w.session.hooks → Changes op w w'
  | define (name : String) (body : List Instruction) (argc : UInt16) :
      w'.image.code = w.image.code ++ [(name, body, argc)] →
      w.image.functions ⊆ w'.image.functions →
      w'.session.hooks = w.session.hooks → Changes op w w'
  | edit (name target : String) : op.target? = some name →
      target = (w.session.hooks.innermost? name).getD name →
      (∀ other, other ≠ target → w'.image.code.lookup other = w.image.code.lookup other) →
      w'.image.functions = w.image.functions →
      w'.session.hooks = w.session.hooks → Changes op w w'
  | move (c₁ c₂ : List (String × List Instruction × UInt16)) (code source placeholder fresh : String)
      (old new : List Instruction) (argc : UInt16) :
      op = .softHook code source placeholder → fresh ∉ w.image.names →
      w.image.code = c₁ ++ (code, old, argc) :: c₂ →
      w'.image.code = c₁ ++ (code, new, argc) :: (fresh, old, argc) :: c₂ →
      w'.image.functions = w.image.functions ++ [⟨fresh, some fresh⟩] →
      w'.session.hooks = w.session.hooks.record code fresh → Changes op w w'

variable {op : Operation}

theorem hardHook_changes (function source : String) (argc : UInt16) (placeholder : String) :
    Changes op w (stateAfter (hardHook strictness function source argc placeholder) w) := by
  rcases hardHook_cases strictness w function source argc placeholder with
    ⟨-, heq⟩ | ⟨name, _, -, -, ⟨_, heq⟩ | ⟨body, -, heq⟩⟩
  · rw [stateAfter_error heq]
    exact .keep rfl rfl rfl
  · rw [stateAfter_error heq]
    exact .keep rfl rfl rfl
  · rw [stateAfter_ok heq]
    exact .define name body argc (Image.code_define _ _ _ _)
      (Image.functions_subset_define _ _ _ _) rfl

theorem defineFunction_changes {w₁ : Workspace} (hcode : w₁.image.code = w.image.code)
    (hfunctions : w₁.image.functions = w.image.functions)
    (hhooks : w₁.session.hooks = w.session.hooks) (source : String) (argc : UInt16) :
    Changes op w (stateAfter (defineFunction strictness name source argc) w₁) := by
  rcases defineFunction_cases strictness w₁ name source argc with ⟨_, heq⟩ | ⟨body, -, -, heq⟩
  · rw [stateAfter_error heq]
    exact .keep hcode hfunctions hhooks
  · rw [stateAfter_ok heq]
    refine .define name body argc ?_ ?_ hhooks
    · rw [Image.code_define, hcode]
    · exact hfunctions ▸ Image.functions_subset_define _ _ _ _

theorem after_changes (hop : op ≠ .applyRedirects) (hreturns : op.Returns w) :
    Changes op w (op.after strictness w) := by
  cases op with
  | softHook code source placeholder =>
    rcases softHook_code strictness source placeholder hreturns with
      heq | ⟨w', l₁, u, l₂, _, fresh, body, heq, rfl, hunits, -, hfresh, hcode, hfunctions, hhooks, -⟩
    · rw [Operation.after, stateAfter_error heq]
      exact .keep rfl rfl rfl
    · rw [Operation.after, heq]
      refine .move _ _ _ _ _ fresh u.body body u.arity rfl hfresh ?_ hcode hfunctions hhooks
      rw [Image.code, hunits, List.map_append, List.map_cons, CodeUnit.code]
  | hardHook function source argc placeholder =>
    exact hardHook_changes function source argc placeholder
  | arityHook function source placeholder =>
    rcases arityHook_cases strictness w function source placeholder with
      ⟨-, heq⟩ | ⟨argc, -, heq⟩
    · rw [Operation.after, stateAfter_error heq]
      exact .keep rfl rfl rfl
    · rw [Operation.after, stateAfter_congr heq]
      exact hardHook_changes function source argc placeholder
  | editInnermost name edit =>
    rcases editInnermost_cases w name fun c ↦ ((), edit c) with heq | ⟨target, _, htarget, -, heq⟩
    · rw [Operation.after, stateAfter_error heq]
      exact .keep rfl rfl rfl
    · rw [Operation.after, stateAfter_ok heq]
      exact .edit name target rfl htarget (fun _ hne ↦ Image.lookup_code_modifyUnit hne _) rfl rfl
  | defineFunction name source argc => exact defineFunction_changes rfl rfl rfl source argc
  | addSelector library =>
    rcases addSelector_cases w library with heq | ⟨_, _, _, -, -, -, heq⟩
    · rw [Operation.after, stateAfter_error heq]
      exact .keep rfl rfl rfl
    · rw [Operation.after, stateAfter_ok heq]
      exact .keep rfl rfl rfl
  | registerExport x modId =>
    rcases register_cases strictness w x modId with ⟨_, _, heq⟩ | ⟨_, _, _, -, -, hadd, heq⟩
    · rw [Operation.after, stateAfter_error heq]
      exact .keep rfl rfl rfl
    · obtain ⟨hunits, hfunctions, -⟩ := Export.addNative_spec hadd
      rw [Operation.after, stateAfter_congr heq]
      refine defineFunction_changes ?_ ?_ ?_ _ _
      · exact Image.code_eq_of_units hunits
      · exact hfunctions
      · rfl
  | applyRedirects => exact absurd rfl hop

/-- Only soft hooks change a chain. -/
theorem after_hooks (hop : op ≠ .applyRedirects) (hreturns : op.Returns w)
    (hsoft : ∀ code source placeholder, op ≠ .softHook code source placeholder) :
    (op.after strictness w).session.hooks = w.session.hooks := by
  have hchanges : Changes op w (op.after strictness w) := after_changes hop hreturns
  cases hchanges with
  | keep _ _ hhooks => exact hhooks
  | define _ _ _ _ _ hhooks => exact hhooks
  | edit _ _ _ _ _ _ hhooks => exact hhooks
  | move _ _ code source placeholder _ _ _ _ heq => exact absurd heq (hsoft code source placeholder)

theorem after_chain (hop : op ≠ .applyRedirects) (hreturns : op.Returns w) (other : String) :
    ∀ p ∈ (op.after strictness w).session.hooks.chain other, p ∈ w.session.hooks.chain other ∨
      p ∉ w.image.names ∧ p ∈ (op.after strictness w).image.units.map (·.name) := by
  intro p hp
  have hchanges : Changes op w (op.after strictness w) := after_changes hop hreturns
  cases hchanges with
  | keep _ _ hhooks => exact .inl (hhooks ▸ hp)
  | define _ _ _ _ _ hhooks => exact .inl (hhooks ▸ hp)
  | edit _ _ _ _ _ _ hhooks => exact .inl (hhooks ▸ hp)
  | move _ _ code _ _ fresh _ _ _ _ hfresh _ hcode _ hhooks =>
    rw [hhooks, HookChains.chain_record] at hp
    split at hp
    · rename_i hother
      rcases List.mem_append.mp hp with hp | hp
      · exact .inl (hother ▸ hp)
      · obtain rfl := List.mem_singleton.mp hp
        refine .inr ⟨hfresh, ?_⟩
        rw [← Image.map_fst_code, hcode]
        simp
    · exact .inl hp

theorem after_code (hop : op ≠ .applyRedirects) (hreturns : op.Returns w)
    (hname : w.StandsApart name) (htarget : op.target? ≠ some name) :
    (op.after strictness w).image.code.lookup name = w.image.code.lookup name := by
  have hchanges : Changes op w (op.after strictness w) := after_changes hop hreturns
  cases hchanges with
  | keep hcode => rw [hcode]
  | define _ _ _ hcode =>
    obtain ⟨u, hu⟩ := Option.isSome_iff_exists.mp (Image.isSome_unit?.mpr hname.1)
    rw [hcode, List.lookup_append, Image.lookup_code, hu]
    rfl
  | edit other target hother hedited hcode =>
    refine hcode name ?_
    rintro rfl
    cases hhead : w.session.hooks.innermost? other with
    | none =>
      rw [hhead, Option.getD_none] at hedited
      exact htarget (hedited ▸ hother)
    | some p =>
      rw [hhead, Option.getD_some] at hedited
      exact hname.2 other (hedited ▸ List.mem_of_head? hhead)
  | move _ _ code _ _ fresh _ _ _ heq hfresh hold hcode =>
    have hne : name ≠ code := by
      rintro rfl
      exact htarget (heq ▸ rfl)
    have hnefresh : name ≠ fresh := by
      rintro rfl
      exact (Image.not_mem_names.mp hfresh).1 hname.1
    rw [hold, hcode, lookup_append_cons_of_ne hne, lookup_append_cons_of_ne hnefresh,
      lookup_append_cons_of_ne hne]

theorem after_housed (h : w.Housed) (hop : op ≠ .applyRedirects) (hreturns : op.Returns w) :
    (op.after strictness w).Housed := by
  intro other p hp
  rcases after_chain hop hreturns other p hp with hp | ⟨-, hp⟩
  · exact (after_records hop).units (h other p hp)
  · exact hp

theorem after_standsApart (h : w.StandsApart name) (hop : op ≠ .applyRedirects)
    (hreturns : op.Returns w) : (op.after strictness w).StandsApart name := by
  refine ⟨(after_records hop).units h.1, fun other hp ↦ ?_⟩
  rcases after_chain hop hreturns other name hp with hp | ⟨hfree, -⟩
  · exact h.2 other hp
  · exact (Image.not_mem_names.mp hfree).1 h.1

theorem after_functions (hop : op ≠ .applyRedirects) (hreturns : op.Returns w) :
    w.image.functions ⊆ (op.after strictness w).image.functions := by
  have hchanges : Changes op w (op.after strictness w) := after_changes hop hreturns
  cases hchanges with
  | keep _ hfunctions => exact hfunctions ▸ List.Subset.refl _
  | define _ _ _ _ hfunctions => exact hfunctions
  | edit _ _ _ _ _ hfunctions => exact hfunctions ▸ List.Subset.refl _
  | move _ _ _ _ _ _ _ _ _ _ _ _ _ hfunctions =>
    exact hfunctions ▸ List.subset_append_left _ _

theorem after_isCallable (hop : op ≠ .applyRedirects) (hreturns : op.Returns w)
    (h : w.image.isCallable name) : (op.after strictness w).image.isCallable name := by
  rw [Image.isCallable_iff] at h ⊢
  rcases h with h | h
  · exact .inl ((after_records hop).units h)
  · obtain ⟨f, hf, rfl⟩ := List.mem_map.mp h
    exact .inr (List.mem_map_of_mem (after_functions hop hreturns hf))

end Engine

end HookPatch
