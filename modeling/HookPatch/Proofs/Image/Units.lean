import HookPatch.Engine.Hooks
import HookPatch.Proofs.Image.Names
import HookPatch.Proofs.Lookup
import Mathlib.Data.List.Basic

namespace HookPatch

theorem modifyFirst_eq_map {α : Type} (key : α → String) (k : String) (f : α → α) {l : List α}
    (h : (l.map key).Nodup) :
    modifyFirst (fun a ↦ key a = k) f l = l.map fun a ↦ if key a = k then f a else a := by
  induction l with
  | nil => rfl
  | cons a l ih =>
    rw [List.map_cons, List.nodup_cons] at h
    rw [modifyFirst, List.map_cons]
    by_cases hk : key a = k
    · have hrest : l.map (fun a ↦ if key a = k then f a else a) = l := by
        refine (List.map_congr_left fun b hb ↦ ?_).trans (List.map_id l)
        rw [if_neg (fun hb' ↦ h.1 (by rw [hk, ← hb']; exact List.mem_map_of_mem hb)), id]
      simp only [hk, decide_true, if_true, hrest]
    · simp only [hk, decide_false, Bool.false_eq_true, if_false, ih h.2]

theorem modifyFirst_append_cons {α : Type} {p : α → Bool} {l₁ : List α} {a : α}
    (hbefore : ∀ b ∈ l₁, ¬ p b) (ha : p a) (l₂ : List α) (f : α → α) :
    modifyFirst p f (l₁ ++ a :: l₂) = l₁ ++ f a :: l₂ := by
  induction l₁ with
  | nil => exact if_pos ha
  | cons b l₁ ih =>
    obtain ⟨hb, hrest⟩ := List.forall_mem_cons.mp hbefore
    rw [List.cons_append, modifyFirst, if_neg hb, ih hrest, List.cons_append]

theorem exists_modifyFirst {α : Type} {p : α → Bool} {l : List α} {a : α} (h : l.find? p = some a) :
    ∃ l₁ l₂, l = l₁ ++ a :: l₂ ∧ ∀ f, modifyFirst p f l = l₁ ++ f a :: l₂ := by
  obtain ⟨ha, l₁, l₂, rfl, hbefore⟩ := List.find?_eq_some_iff_append.mp h
  simp only [Bool.not_eq_true', ← Bool.not_eq_true] at hbefore
  exact ⟨l₁, l₂, rfl, modifyFirst_append_cons hbefore ha l₂⟩

def CodeUnit.withBody (u : CodeUnit) (body : List Instruction) : CodeUnit := { u with body }

def CodeUnit.adoptedBy (parent : String) (children : List String) (u : CodeUnit) : CodeUnit :=
  if u.name ∈ children then { u with parent := some parent } else u

namespace CodeUnit

variable (parent : String) (children : List String) (u : CodeUnit)

@[simp]
theorem adoptedBy_name : (u.adoptedBy parent children).name = u.name := by
  unfold adoptedBy; split <;> rfl

@[simp]
theorem adoptedBy_body : (u.adoptedBy parent children).body = u.body := by
  unfold adoptedBy; split <;> rfl

@[simp]
theorem adoptedBy_arity : (u.adoptedBy parent children).arity = u.arity := by
  unfold adoptedBy; split <;> rfl

@[simp]
theorem adoptedBy_localCount : (u.adoptedBy parent children).localCount = u.localCount := by
  unfold adoptedBy; split <;> rfl

@[simp]
theorem adoptedBy_locals : (u.adoptedBy parent children).locals = u.locals := by
  unfold adoptedBy; split <;> rfl

@[simp]
theorem adoptedBy_children : (u.adoptedBy parent children).children = u.children := by
  unfold adoptedBy; split <;> rfl

theorem adoptedBy_parent :
    (u.adoptedBy parent children).parent = if u.name ∈ children then some parent else u.parent := by
  unfold adoptedBy; split <;> rfl

end CodeUnit

namespace Image

variable {image : Image}

theorem modifyUnit_units (h : (image.units.map (·.name)).Nodup) (name : String)
    (f : CodeUnit → CodeUnit) :
    (image.modifyUnit name f).units = image.units.map fun u ↦ if u.name = name then f u else u :=
  modifyFirst_eq_map CodeUnit.name name f h

theorem adopt_units (h : (image.units.map (·.name)).Nodup) (parent : String)
    (children : List String) :
    (image.adopt parent children).units = image.units.map (·.adoptedBy parent children) := by
  induction children generalizing image with
  | nil => exact (List.map_id image.units).symm.trans (List.map_congr_left fun u _ ↦ rfl)
  | cons c cs ih =>
    have hmap := modifyUnit_units h c fun u ↦ { u with parent := some parent }
    have hnames : ((image.modifyUnit c fun u ↦ { u with parent := some parent }).units.map
        (·.name)) = image.units.map (·.name) := by
      rw [hmap, List.map_map]
      refine List.map_congr_left fun u _ ↦ ?_
      simp only [Function.comp_apply]
      split <;> rfl
    have hstep := ih (hnames.symm ▸ h)
    rw [adopt, List.foldl_cons]
    refine hstep.trans ?_
    rw [hmap, List.map_map]
    refine List.map_congr_left fun u _ ↦ ?_
    simp only [Function.comp_apply, CodeUnit.adoptedBy, List.mem_cons]
    split <;> split <;> simp_all

@[simp]
theorem adopt_functions (parent : String) (children : List String) :
    (image.adopt parent children).functions = image.functions := by
  induction children generalizing image with
  | nil => rfl
  | cons c cs ih => exact ih

@[simp]
theorem adopt_extensions (parent : String) (children : List String) :
    (image.adopt parent children).extensions = image.extensions := by
  induction children generalizing image with
  | nil => rfl
  | cons c cs ih => exact ih

theorem exists_split {name : String} {u : CodeUnit} (h : image.unit? name = some u) :
    ∃ l₁ l₂, image.units = l₁ ++ u :: l₂ ∧ u.name = name ∧ image.unitIndex? name = some l₁.length := by
  obtain ⟨hname, l₁, l₂, hunits, hbefore⟩ := List.find?_eq_some_iff_append.mp h
  refine ⟨l₁, l₂, hunits, by simpa using hname, ?_⟩
  rw [unitIndex?, hunits, List.findIdx?_append, List.findIdx?_eq_none_iff.mpr (by simpa using hbefore),
    List.findIdx?_cons, hname]
  simp

theorem unit?_eq_some {name : String} {u : CodeUnit} (h : image.unit? name = some u) :
    u ∈ image.units ∧ u.name = name :=
  ⟨List.mem_of_find?_eq_some h, by simpa using List.find?_some h⟩

theorem unit?_eq_some_iff (h : (image.units.map (·.name)).Nodup) {name : String} {u : CodeUnit} :
    image.unit? name = some u ↔ u ∈ image.units ∧ u.name = name :=
  find?_eq_some_iff_of_nodup h

theorem declare_functions_of_not_mem {name : String} {code : Option String}
    (h : name ∉ image.functions.map (·.name)) :
    (image.declare name code).functions = image.functions ++ [⟨name, code⟩] := by
  rw [declare, if_neg (fun hsome ↦ h (isSome_function?.mp hsome))]

@[simp]
theorem declare_units (name : String) (code : Option String) :
    (image.declare name code).units = image.units := by
  unfold declare; split <;> rfl

@[simp]
theorem declare_extensions (name : String) (code : Option String) :
    (image.declare name code).extensions = image.extensions := by
  unfold declare; split <;> rfl

end Image

end HookPatch
