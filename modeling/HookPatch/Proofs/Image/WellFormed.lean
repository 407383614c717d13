import HookPatch.Proofs.Image.Units

namespace HookPatch

structure Image.WellFormed (image : Image) : Prop where
  units_nodup : (image.units.map (·.name)).Nodup
  functions_nodup : (image.functions.map (·.name)).Nodup
  natives_nodup : (image.nativeFunctions.map (·.name)).Nodup
  natives_apart : ∀ f ∈ image.nativeFunctions,
    f.name ∉ image.units.map (·.name) ∧ f.name ∉ image.functions.map (·.name)
  children_linked : ∀ u ∈ image.units, ∀ child ∈ u.children,
    ∃ v ∈ image.units, v.name = child ∧ v.parent = some u.name
  parents_linked : ∀ v ∈ image.units, ∀ parent ∈ v.parent,
    ∃ u ∈ image.units, u.name = parent ∧ v.name ∈ u.children

instance (image : Image) : Decidable image.WellFormed :=
  decidable_of_iff
    ((image.units.map (·.name)).Nodup ∧ (image.functions.map (·.name)).Nodup ∧
      (image.nativeFunctions.map (·.name)).Nodup ∧
      (∀ f ∈ image.nativeFunctions,
        f.name ∉ image.units.map (·.name) ∧ f.name ∉ image.functions.map (·.name)) ∧
      (∀ u ∈ image.units, ∀ child ∈ u.children,
        ∃ v ∈ image.units, v.name = child ∧ v.parent = some u.name) ∧
      ∀ v ∈ image.units, ∀ parent ∈ v.parent,
        ∃ u ∈ image.units, u.name = parent ∧ v.name ∈ u.children)
    ⟨fun ⟨h₁, h₂, h₃, h₄, h₅, h₆⟩ ↦ ⟨h₁, h₂, h₃, h₄, h₅, h₆⟩,
      fun ⟨h₁, h₂, h₃, h₄, h₅, h₆⟩ ↦ ⟨h₁, h₂, h₃, h₄, h₅, h₆⟩⟩

/-- What a unit is apart from its code. -/
def CodeUnit.outline (u : CodeUnit) : String × UInt16 × Option String × List String :=
  (u.name, u.arity, u.parent, u.children)

theorem map_modify_eq {α β : Type} (g : α → β) (f : α → α) (h : ∀ a, g (f a) = g a) (l : List α)
    (i : Nat) : (l.modify i f).map g = l.map g := by
  induction l generalizing i with
  | nil => cases i <;> rfl
  | cons a l ih =>
    cases i with
    | zero => simp [h]
    | succ i => simp [ih]

theorem map_modifyFirst_eq {α β : Type} (p : α → Bool) (g : α → β) (f : α → α)
    (h : ∀ a, g (f a) = g a) (l : List α) : (modifyFirst p f l).map g = l.map g := by
  induction l with
  | nil => rfl
  | cons a l ih =>
    rw [modifyFirst]
    split <;> simp [h, ih]

theorem Image.modifyUnit_outline (image : Image) (name : String) (body : List Instruction) :
    (image.modifyUnit name (·.withBody body)).units.map CodeUnit.outline =
      image.units.map CodeUnit.outline :=
  map_modifyFirst_eq _ CodeUnit.outline (·.withBody body) (fun _ ↦ rfl) image.units

namespace Image

variable {image image' : Image}

structure Extends (image image' : Image) : Prop where
  units : ∀ u ∈ image.units, ∃ v ∈ image'.units, v.name = u.name ∧ v.arity = u.arity
  functions : image.functions ⊆ image'.functions

theorem Extends.mem_units (h : image.Extends image') {name : String}
    (hname : name ∈ image.units.map (·.name)) : name ∈ image'.units.map (·.name) := by
  obtain ⟨u, hu, rfl⟩ := List.mem_map.mp hname
  obtain ⟨v, hv, hvu, -⟩ := h.units u hu
  exact hvu ▸ List.mem_map_of_mem hv

theorem Extends.isCallable (h : image.Extends image') {name : String}
    (hname : image.isCallable name) : image'.isCallable name := by
  rw [isCallable_iff] at hname ⊢
  rcases hname with hname | hname
  · exact .inl (h.mem_units hname)
  · obtain ⟨d, hd, rfl⟩ := List.mem_map.mp hname
    exact .inr (List.mem_map_of_mem (h.functions hd))

section SameOutlines

variable (houtline : image'.units.map CodeUnit.outline = image.units.map CodeUnit.outline)
  (hfunctions : image'.functions = image.functions) (hextensions : image'.extensions = image.extensions)

include houtline

theorem names_eq_of_outline : image'.units.map (·.name) = image.units.map (·.name) := by
  have h := congrArg (List.map (·.1)) houtline
  rw [List.map_map, List.map_map] at h
  exact h

theorem exists_of_outline {u : CodeUnit} (hu : u ∈ image.units) :
    ∃ v ∈ image'.units, v.outline = u.outline := by
  have hmem : u.outline ∈ image'.units.map CodeUnit.outline :=
    houtline ▸ List.mem_map_of_mem hu
  simpa only [List.mem_map] using hmem

include hfunctions

theorem extends_of_outline : image.Extends image' where
  units u hu := by
    obtain ⟨v, hv, h⟩ := exists_of_outline houtline hu
    simp only [CodeUnit.outline, Prod.mk.injEq] at h
    exact ⟨v, hv, h.1, h.2.1⟩
  functions := by rw [hfunctions]; exact List.Subset.refl _

include hextensions

/-- Nothing of this depends on the code of units. -/
theorem WellFormed.of_outline (h : image.WellFormed) : image'.WellFormed where
  units_nodup := by rw [names_eq_of_outline houtline]; exact h.units_nodup
  functions_nodup := by rw [hfunctions]; exact h.functions_nodup
  natives_nodup := by rw [nativeFunctions, hextensions]; exact h.natives_nodup
  natives_apart f hf := by
    rw [nativeFunctions, hextensions] at hf
    rw [names_eq_of_outline houtline, hfunctions]
    exact h.natives_apart f hf
  children_linked u hu child hchild := by
    obtain ⟨u₀, hu₀, h₀⟩ := exists_of_outline houtline.symm hu
    simp only [CodeUnit.outline, Prod.mk.injEq] at h₀
    obtain ⟨v₀, hv₀, hname, hparent⟩ := h.children_linked u₀ hu₀ child (h₀.2.2.2 ▸ hchild)
    obtain ⟨v, hv, h₁⟩ := exists_of_outline houtline hv₀
    simp only [CodeUnit.outline, Prod.mk.injEq] at h₁
    exact ⟨v, hv, h₁.1.trans hname, by rw [h₁.2.2.1, hparent, h₀.1]⟩
  parents_linked v hv parent hparent := by
    obtain ⟨v₀, hv₀, h₀⟩ := exists_of_outline houtline.symm hv
    simp only [CodeUnit.outline, Prod.mk.injEq] at h₀
    obtain ⟨u₀, hu₀, hname, hchild⟩ := h.parents_linked v₀ hv₀ parent (h₀.2.2.1 ▸ hparent)
    obtain ⟨u, hu, h₁⟩ := exists_of_outline houtline hu₀
    simp only [CodeUnit.outline, Prod.mk.injEq] at h₁
    exact ⟨u, hu, h₁.1.trans hname, by rw [h₁.2.2.2, ← h₀.1]; exact hchild⟩

end SameOutlines

theorem not_mem_names {name : String} : name ∉ image.names ↔
    name ∉ image.units.map (·.name) ∧ name ∉ image.functions.map (·.name) ∧
      name ∉ image.nativeFunctions.map (·.name) := by
  simp only [names, List.mem_append, not_or, and_assoc]

@[simp]
theorem define_units (name : String) (argc : UInt16) (body : List Instruction) :
    (image.define name argc body).units = image.units ++ [{ name, body, arity := argc }] := by
  simp [define, addUnit]

@[simp]
theorem define_extensions (name : String) (argc : UInt16) (body : List Instruction) :
    (image.define name argc body).extensions = image.extensions := by
  simp [define, addUnit]

theorem define_functions {name : String} (hname : name ∉ image.names) (argc : UInt16)
    (body : List Instruction) :
    (image.define name argc body).functions = image.functions ++ [⟨name, some name⟩] :=
  declare_functions_of_not_mem (not_mem_names.mp hname).2.1

theorem define_units_nodup (h : (image.units.map (·.name)).Nodup) {name : String}
    (hname : name ∉ image.names) (argc : UInt16) (body : List Instruction) :
    ((image.define name argc body).units.map (·.name)).Nodup := by
  rw [define_units, List.map_append]
  exact List.nodup_append_comm.mp (List.nodup_cons.mpr ⟨(not_mem_names.mp hname).1, h⟩)

theorem extends_define {name : String} (hname : name ∉ image.names) (argc : UInt16)
    (body : List Instruction) : image.Extends (image.define name argc body) where
  units u hu := ⟨u, by simp [hu], rfl, rfl⟩
  functions := by rw [define_functions hname]; exact List.subset_append_left _ _

theorem WellFormed.define (h : image.WellFormed) {name : String} (hname : name ∉ image.names)
    (argc : UInt16) (body : List Instruction) : (image.define name argc body).WellFormed := by
  obtain ⟨-, hfunction, hnative⟩ := not_mem_names.mp hname
  have hfunctions := define_functions hname argc body
  refine ⟨define_units_nodup h.units_nodup hname argc body, ?_, ?_, ?_, ?_, ?_⟩
  · rw [hfunctions, List.map_append]
    exact List.nodup_append_comm.mp (List.nodup_cons.mpr ⟨hfunction, h.functions_nodup⟩)
  · rw [nativeFunctions, define_extensions]
    exact h.natives_nodup
  · intro f hf
    rw [nativeFunctions, define_extensions] at hf
    have hne : f.name ≠ name := fun hf' ↦ hnative (hf' ▸ List.mem_map_of_mem hf)
    have hapart := h.natives_apart f hf
    rw [define_units, hfunctions]
    simp only [List.map_append, List.mem_append, List.map_cons, List.map_nil, List.mem_singleton,
      not_or]
    exact ⟨⟨hapart.1, hne⟩, hapart.2, hne⟩
  · intro u hu child hchild
    rw [define_units, List.mem_append, List.mem_singleton] at hu
    rcases hu with hu | rfl
    · obtain ⟨v, hv, hlink⟩ := h.children_linked u hu child hchild
      exact ⟨v, by simp [hv], hlink⟩
    · simp at hchild
  · intro v hv parent hparent
    rw [define_units, List.mem_append, List.mem_singleton] at hv
    rcases hv with hv | rfl
    · obtain ⟨u, hu, hlink⟩ := h.parents_linked v hv parent hparent
      exact ⟨u, by simp [hu], hlink⟩
    · simp at hparent

theorem extends_of_units_eq (hunits : image'.units = image.units)
    (hfunctions : image'.functions = image.functions) : image.Extends image' :=
  extends_of_outline (by rw [hunits]) hfunctions

theorem WellFormed.addNative (h : image.WellFormed) {f : NativeFunction} (hf : f.name ∉ image.names)
    (hunits : image'.units = image.units) (hfunctions : image'.functions = image.functions)
    (hnatives : image'.nativeFunctions.Perm (f :: image.nativeFunctions)) : image'.WellFormed := by
  obtain ⟨hunit, hfunction, hnative⟩ := not_mem_names.mp hf
  refine ⟨hunits ▸ h.units_nodup, hfunctions ▸ h.functions_nodup, ?_, ?_,
    hunits ▸ h.children_linked, hunits ▸ h.parents_linked⟩
  · rw [(hnatives.map (·.name)).nodup_iff]
    exact List.nodup_cons.mpr ⟨hnative, h.natives_nodup⟩
  · intro g hg
    rw [hunits, hfunctions]
    rcases List.mem_cons.mp (hnatives.mem_iff.mp hg) with rfl | hg
    · exact ⟨hunit, hfunction⟩
    · exact h.natives_apart g hg

end Image

end HookPatch
