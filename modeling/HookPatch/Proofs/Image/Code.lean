import HookPatch.Proofs.Engine.Operation
import HookPatch.Proofs.Engine.Preserve
import HookPatch.Proofs.Session.Tables
import Mathlib.Data.List.InsertIdx

namespace HookPatch

def CodeUnit.code (u : CodeUnit) : String × List Instruction × UInt16 := (u.name, u.body, u.arity)

theorem lookup_append_cons_of_ne {α : Type} {name key : String} (h : name ≠ key)
    (l₁ : List (String × α)) (a : α) (l₂ : List (String × α)) :
    (l₁ ++ (key, a) :: l₂).lookup name = (l₁ ++ l₂).lookup name := by
  rw [List.lookup_append, List.lookup_append, lookup_cons_eq_ite, if_neg h]

theorem lookup_append_cons_self {α : Type} {key : String} {l₁ : List (String × α)}
    (h : key ∉ l₁.map (·.1)) (a : α) (l₂ : List (String × α)) :
    (l₁ ++ (key, a) :: l₂).lookup key = some a := by
  have hnone : l₁.lookup key = none := by
    rw [List.lookup_eq_none_iff]
    intro e he
    rw [bne_iff_ne]
    rintro rfl
    exact h (List.mem_map_of_mem he)
  rw [List.lookup_append, hnone, Option.none_or, lookup_cons_eq_ite, if_pos rfl]

namespace Image

def code (image : Image) : List (String × List Instruction × UInt16) :=
  image.units.map CodeUnit.code

theorem map_fst_code (image : Image) : image.code.map (·.1) = image.units.map (·.name) := by
  rw [code, List.map_map]
  rfl

theorem lookup_code (image : Image) (name : String) :
    image.code.lookup name = (image.unit? name).map fun u ↦ (u.body, u.arity) := by
  rw [code, unit?]
  induction image.units with
  | nil => rfl
  | cons u units ih =>
    rw [List.map_cons, CodeUnit.code, lookup_cons_eq_ite, List.find?_cons]
    by_cases h : u.name = name
    · simp [h]
    · simp [h, Ne.symm h, ih]

theorem unit?_of_lookup_code {image : Image} {name : String} {body : List Instruction}
    {argc : UInt16} (h : image.code.lookup name = some (body, argc)) :
    ∃ u, image.unit? name = some u ∧ u.body = body ∧ u.arity = argc := by
  rw [lookup_code, Option.map_eq_some_iff] at h
  obtain ⟨u, hu, heq⟩ := h
  exact ⟨u, hu, (Prod.mk.inj heq).1, (Prod.mk.inj heq).2⟩

theorem mem_names_of_lookup_code {image : Image} {name : String}
    {c : List Instruction × UInt16} (h : image.code.lookup name = some c) :
    name ∈ image.units.map (·.name) := by
  rw [lookup_code, Option.map_eq_some_iff] at h
  obtain ⟨u, hu, -⟩ := h
  exact isSome_unit?.mp (hu ▸ rfl)

variable {image : Image} {l₁ l₂ : List CodeUnit} {u : CodeUnit} {name : String}

theorem code_eq_of_units {image' : Image} (h : image'.units = image.units) :
    image'.code = image.code := by rw [code, code, h]

theorem adopt_code (image : Image) (parent : String) (children : List String) :
    (image.adopt parent children).code = image.code := by
  induction children generalizing image with
  | nil => rfl
  | cons c cs ih =>
    exact (ih _).trans (map_modifyFirst_eq (fun u : CodeUnit ↦ u.name = c) CodeUnit.code
      (fun u ↦ { u with parent := some parent }) (fun _ ↦ rfl) image.units)

theorem moveBody_code (hunits : image.units = l₁ ++ u :: l₂) (name : String) :
    (image.moveBody l₁.length u name).code = l₁.map CodeUnit.code ++
      (u.name, [], u.arity) :: (name, u.body, u.arity) :: l₂.map CodeUnit.code := by
  let emptied : Image := { image with units := image.units.modify l₁.length CodeUnit.emptied }
  have hcode : (emptied.adopt name u.children).units.map CodeUnit.code =
      l₁.map CodeUnit.code ++ (u.name, [], u.arity) :: l₂.map CodeUnit.code := by
    have hemptied : emptied.units = l₁ ++ u.emptied :: l₂ := by
      simp only [emptied, hunits, modify_append_cons]
    rw [show (emptied.adopt name u.children).units.map CodeUnit.code = emptied.code from
      adopt_code emptied name u.children, code, hemptied, List.map_append, List.map_cons]
    rfl
  have hlength : l₁.length + 1 ≤ (emptied.adopt name u.children).units.length := by
    have h := congrArg List.length hcode
    simp only [List.length_map, List.length_append, List.length_cons] at h
    omega
  rw [moveBody, code, declare_units, insertBehind, Nat.min_eq_left hlength, List.map_insertIdx, hcode]
  have hinsert := insertIdx_append_cons (name, u.body, u.arity) (l₁.map CodeUnit.code)
    (u.name, ([], u.arity)) (l₂.map CodeUnit.code)
  rwa [List.length_map] at hinsert

theorem setBody_code {c₁ c₂ : List (String × List Instruction × UInt16)} {body : List Instruction}
    {argc : UInt16} (h : image.code = c₁ ++ (name, body, argc) :: c₂) (body' : List Instruction) :
    (image.setBody c₁.length body').code = c₁ ++ (name, body', argc) :: c₂ := by
  obtain ⟨l₁, l', hunits, rfl, hrest⟩ := List.map_eq_append_iff.mp h
  obtain ⟨u, l₂, rfl, hu, rfl⟩ := List.map_eq_cons_iff.mp hrest
  rw [setBody, code, List.length_map, hunits, modify_append_cons, List.map_append, List.map_cons]
  simp only [CodeUnit.code, Prod.mk.injEq] at hu ⊢
  rw [hu.1, hu.2.2]

theorem lookup_code_modifyUnit {other : String} (h : name ≠ other) (body : List Instruction) :
    (image.modifyUnit other (·.withBody body)).code.lookup name = image.code.lookup name := by
  rw [modifyUnit, code, code]
  induction image.units with
  | nil => rfl
  | cons v units ih =>
    rw [modifyFirst]
    split
    · rename_i hv
      have hv : v.name ≠ name := fun heq ↦ h (by rw [← heq]; simpa using hv)
      simp only [List.map_cons, CodeUnit.code, CodeUnit.withBody, lookup_cons_eq_ite]
      rw [if_neg hv.symm, if_neg hv.symm]
    · simp only [List.map_cons, CodeUnit.code, lookup_cons_eq_ite, ih]

theorem code_define (image : Image) (name : String) (argc : UInt16) (body : List Instruction) :
    (image.define name argc body).code = image.code ++ [(name, body, argc)] := by
  rw [code, define_units, List.map_append]
  rfl

theorem functions_subset_define (image : Image) (name : String) (argc : UInt16)
    (body : List Instruction) : image.functions ⊆ (image.define name argc body).functions := by
  rw [define, declare]
  split
  · exact List.Subset.refl _
  · exact List.subset_append_left _ _

end Image

namespace Engine

open Assembly

/-- A soft hook that comes to move a body changes the code in one place: the hooked unit gets another
body, and the body that it had stands behind it under a new name. -/
theorem softHook_code (strictness : Strictness) {w : Workspace} {code : String}
    (source placeholder : String)
    (hspare : (w.image.unit? code).isSome → w.image.HasSpareName code "orig") :
    softHook strictness code source placeholder w = .error (.unknownName code) w ∨
    ∃ w' l₁ u l₂ n name body, stateAfter (softHook strictness code source placeholder) w = w' ∧
      u.name = code ∧ w.image.units = l₁ ++ u :: l₂ ∧
      name = GeneratedNames.name code "orig" n ∧ name ∉ w.image.names ∧
      w'.image.code = l₁.map CodeUnit.code ++
        (code, body, u.arity) :: (name, u.body, u.arity) :: l₂.map CodeUnit.code ∧
      w'.image.functions = w.image.functions ++ [⟨name, some name⟩] ∧
      w'.session.hooks = w.session.hooks.record code name ∧
      ∀ preserved w'', softHook strictness code source placeholder w = .ok preserved w'' →
        AssemblesTo (substitute placeholder name source) body := by
  rcases softHook_cases strictness w code source placeholder with
    ⟨-, heq⟩ | ⟨l₁, u, l₂, name, moved, hu, rfl, hunits, hmove, hresult⟩
  · exact .inl heq
  obtain ⟨names, hnext, rfl⟩ := Workspace.preserve_eq hmove
  have hname := w.session.names.next_fresh (hspare (hu ▸ rfl))
  obtain ⟨n, hn⟩ : ∃ n, (w.session.names.next w.image u.name "orig").1 =
      GeneratedNames.name u.name "orig" n := ⟨_, rfl⟩
  rw [hnext] at hname hn
  have hcode := Image.moveBody_code hunits name
  have hfunctions := Image.moveBody_functions (u := u) hname l₁.length
  rcases hresult with ⟨e, -, heq⟩ | ⟨body, hbody, heq⟩
  · refine .inr ⟨_, l₁, u, l₂, n, name, [], stateAfter_error heq, rfl, hunits, hn, hname, hcode,
      hfunctions, rfl, ?_⟩
    intro preserved w'' hok
    rw [heq] at hok
    cases hok
  · refine .inr ⟨_, l₁, u, l₂, n, name, body, stateAfter_ok heq, rfl, hunits, hn, hname, ?_,
      hfunctions, rfl, fun _ _ _ ↦ assemblesTo_of_assembleFor hbody⟩
    have hset := Image.setBody_code hcode body
    rwa [List.length_map] at hset

end Engine

end HookPatch
