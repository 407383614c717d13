import HookPatch.Proofs.Cursor.Zipper
import HookPatch.Proofs.Image.WellFormed

namespace HookPatch

def CodeUnit.afterMove (u : CodeUnit) (name : String) (v : CodeUnit) : CodeUnit :=
  (if v.name = u.name then v.emptied else v).adoptedBy name u.children

namespace CodeUnit

variable (u : CodeUnit) (name : String) (v : CodeUnit)

@[simp]
theorem afterMove_name : (u.afterMove name v).name = v.name := by
  unfold afterMove; split <;> simp [emptied]

@[simp]
theorem afterMove_arity : (u.afterMove name v).arity = v.arity := by
  unfold afterMove; split <;> simp [emptied]

theorem afterMove_parent :
    (u.afterMove name v).parent = if v.name ∈ u.children then some name else v.parent := by
  unfold afterMove; split <;> simp [adoptedBy_parent, emptied]

theorem afterMove_children :
    (u.afterMove name v).children = if v.name = u.name then [] else v.children := by
  unfold afterMove; split <;> simp [emptied]

end CodeUnit

theorem modify_append_cons {α : Type} (f : α → α) (l₁ : List α) (a : α) (l₂ : List α) :
    (l₁ ++ a :: l₂).modify l₁.length f = l₁ ++ f a :: l₂ := by
  induction l₁ with
  | nil => rfl
  | cons b l₁ ih => simp [ih]

def Image.moveBody (image : Image) (index : Nat) (u : CodeUnit) (name : String) : Image :=
  (({ image with units := image.units.modify index CodeUnit.emptied }.adopt name
    u.children).insertBehind index (u.preservedAs name)).declare name (some name)

theorem Workspace.preserve_eq {w w' : Workspace} {index : Nat} {u : CodeUnit} {name : String}
    (h : w.preserve index u = (name, w')) :
    ∃ names, w.session.names.next w.image u.name "orig" = (name, names) ∧ w' = {
      image := w.image.moveBody index u name
      session := { w.session with names, hooks := w.session.hooks.record u.name name } } := by
  obtain ⟨n, names, hnext⟩ :
    ∃ n g, w.session.names.next w.image u.name "orig" = (n, g) := ⟨_, _, rfl⟩
  simp only [preserve, hnext] at h
  obtain ⟨rfl, rfl⟩ := Prod.mk.inj h
  exact ⟨names, hnext, rfl⟩

namespace Image

variable {image : Image} {u : CodeUnit} {l₁ l₂ : List CodeUnit} {name : String}

theorem name_ne_of_split (hunits : image.units = l₁ ++ u :: l₂)
    (hnodup : (image.units.map (·.name)).Nodup) {v : CodeUnit} (hv : v ∈ l₁ ++ l₂) :
    v.name ≠ u.name := by
  rw [hunits, List.map_append, List.map_cons] at hnodup
  have hmid := (List.nodup_cons.mp (List.nodup_middle.mp hnodup)).1
  intro hvu
  exact hmid (hvu ▸ List.map_append ▸ List.mem_map_of_mem hv)

theorem moveBody_units (hunits : image.units = l₁ ++ u :: l₂)
    (hnodup : (image.units.map (·.name)).Nodup) :
    (image.moveBody l₁.length u name).units = l₁.map (u.afterMove name) ++
      u.afterMove name u :: u.preservedAs name :: l₂.map (u.afterMove name) := by
  have hemptied : image.units.modify l₁.length CodeUnit.emptied = l₁ ++ u.emptied :: l₂ := by
    rw [hunits, modify_append_cons]
  have hadopt : ({ image with units := image.units.modify l₁.length CodeUnit.emptied }.adopt name
      u.children).units = (l₁ ++ u.emptied :: l₂).map (·.adoptedBy name u.children) := by
    rw [adopt_units, hemptied]
    rw [hunits] at hnodup
    simpa [hemptied, CodeUnit.emptied] using hnodup
  have hmap : ∀ l ⊆ l₁ ++ l₂, l.map (·.adoptedBy name u.children) = l.map (u.afterMove name) := by
    intro l hl
    refine List.map_congr_left fun v hv ↦ ?_
    rw [CodeUnit.afterMove, if_neg (name_ne_of_split hunits hnodup (hl hv))]
  have hu : u.emptied.adoptedBy name u.children = u.afterMove name u := by
    rw [CodeUnit.afterMove, if_pos rfl]
  rw [moveBody, declare_units, insertBehind, hadopt, List.map_append, List.map_cons, hu,
    hmap l₁ (List.subset_append_left _ _), hmap l₂ (List.subset_append_right _ _)]
  have hmin : min (l₁.length + 1) (l₁.map (u.afterMove name) ++
      u.afterMove name u :: l₂.map (u.afterMove name)).length =
      (l₁.map (u.afterMove name)).length + 1 := by
    simp only [List.length_append, List.length_cons, List.length_map]
    omega
  rw [hmin, insertIdx_append_cons]

theorem mem_moveBody_units (hunits : image.units = l₁ ++ u :: l₂)
    (hnodup : (image.units.map (·.name)).Nodup) {v : CodeUnit} :
    v ∈ (image.moveBody l₁.length u name).units ↔
      v = u.preservedAs name ∨ ∃ v₀ ∈ image.units, u.afterMove name v₀ = v := by
  rw [moveBody_units hunits hnodup, hunits]
  simp only [List.mem_append, List.mem_cons, List.mem_map]
  constructor
  · rintro (⟨v₀, hv₀, rfl⟩ | rfl | rfl | ⟨v₀, hv₀, rfl⟩)
    · exact .inr ⟨v₀, .inl hv₀, rfl⟩
    · exact .inr ⟨u, .inr (.inl rfl), rfl⟩
    · exact .inl rfl
    · exact .inr ⟨v₀, .inr (.inr hv₀), rfl⟩
  · rintro (rfl | ⟨v₀, hv₀ | rfl | hv₀, rfl⟩)
    · exact .inr (.inr (.inl rfl))
    · exact .inl ⟨v₀, hv₀, rfl⟩
    · exact .inr (.inl rfl)
    · exact .inr (.inr (.inr ⟨v₀, hv₀, rfl⟩))

theorem moved_names {a : CodeUnit} (ha : a.name = u.name) :
    ((l₁.map (u.afterMove name) ++
      a :: u.preservedAs name :: l₂.map (u.afterMove name)).map (·.name)).Perm
      (name :: (l₁ ++ u :: l₂).map (·.name)) := by
  simp only [List.map_append, List.map_cons, List.map_map, Function.comp_def,
    CodeUnit.afterMove_name, ha]
  exact ((List.Perm.swap name u.name _).append_left _).trans List.perm_middle

theorem moveBody_names (hunits : image.units = l₁ ++ u :: l₂)
    (hnodup : (image.units.map (·.name)).Nodup) :
    ((image.moveBody l₁.length u name).units.map (·.name)).Perm
      (name :: image.units.map (·.name)) := by
  rw [moveBody_units hunits hnodup, hunits]
  exact moved_names (u.afterMove_name name u)

theorem moveBody_functions (hname : name ∉ image.names) (index : Nat) :
    (image.moveBody index u name).functions = image.functions ++ [⟨name, some name⟩] := by
  have h : (({ image with units := image.units.modify index CodeUnit.emptied }.adopt name
      u.children).insertBehind index (u.preservedAs name)).functions = image.functions :=
    adopt_functions _ _
  rw [moveBody, declare_functions_of_not_mem (by rw [h]; exact (not_mem_names.mp hname).2.1), h]

@[simp]
theorem moveBody_extensions (index : Nat) :
    (image.moveBody index u name).extensions = image.extensions := by
  rw [moveBody, declare_extensions]
  exact adopt_extensions _ _

theorem extends_moveBody (hunits : image.units = l₁ ++ u :: l₂)
    (hnodup : (image.units.map (·.name)).Nodup) (hname : name ∉ image.names) :
    image.Extends (image.moveBody l₁.length u name) where
  units v hv := ⟨u.afterMove name v, (mem_moveBody_units hunits hnodup).mpr (.inr ⟨v, hv, rfl⟩),
    u.afterMove_name name v, u.afterMove_arity name v⟩
  functions := by rw [moveBody_functions hname]; exact List.subset_append_left _ _

theorem WellFormed.moveBody (h : image.WellFormed) (hunits : image.units = l₁ ++ u :: l₂)
    (hname : name ∉ image.names) : (image.moveBody l₁.length u name).WellFormed := by
  obtain ⟨hunit, hfunction, hnative⟩ := not_mem_names.mp hname
  have hmem {v : CodeUnit} : v ∈ (image.moveBody l₁.length u name).units ↔ _ :=
    mem_moveBody_units hunits h.units_nodup
  have hnames : ((image.moveBody l₁.length u name).units.map (·.name)).Perm _ :=
    moveBody_names hunits h.units_nodup
  have hfunctions := moveBody_functions (u := u) hname l₁.length
  have hu : u ∈ image.units := by simp [hunits]
  have hsame {v v' : CodeUnit} (hv : v ∈ image.units) (hv' : v' ∈ image.units)
      (heq : v.name = v'.name) : v = v' := List.inj_on_of_nodup_map h.units_nodup hv hv' heq
  refine ⟨?_, ?_, ?_, ?_, ?_, ?_⟩
  · rw [hnames.nodup_iff]
    exact List.nodup_cons.mpr ⟨hunit, h.units_nodup⟩
  · rw [hfunctions, List.map_append]
    exact List.nodup_append_comm.mp (List.nodup_cons.mpr ⟨hfunction, h.functions_nodup⟩)
  · rw [nativeFunctions, moveBody_extensions]
    exact h.natives_nodup
  · intro f hf
    rw [nativeFunctions, moveBody_extensions] at hf
    have hne : f.name ≠ name := fun hf' ↦ hnative (hf' ▸ List.mem_map_of_mem hf)
    have hapart := h.natives_apart f hf
    rw [hnames.mem_iff, hfunctions]
    simp only [List.map_append, List.mem_append, List.mem_cons, List.map_cons, List.map_nil,
      List.not_mem_nil, or_false, not_or]
    exact ⟨⟨hne, hapart.1⟩, hapart.2, hne⟩
  · intro v hv child hchild
    rcases hmem.mp hv with rfl | ⟨v₀, hv₀, rfl⟩
    · -- The new unit: its children have been told of it.
      obtain ⟨c, hc, rfl, -⟩ := h.children_linked u hu child hchild
      refine ⟨u.afterMove name c, hmem.mpr (.inr ⟨c, hc, rfl⟩), u.afterMove_name name c, ?_⟩
      rw [CodeUnit.afterMove_parent, if_pos (show c.name ∈ u.children from hchild)]
      rfl
    · rw [CodeUnit.afterMove_children] at hchild
      split at hchild
      · simp at hchild
      · rename_i hne
        obtain ⟨c, hc, rfl, hparent⟩ := h.children_linked v₀ hv₀ child hchild
        refine ⟨u.afterMove name c, hmem.mpr (.inr ⟨c, hc, rfl⟩), u.afterMove_name name c, ?_⟩
        rw [CodeUnit.afterMove_parent, CodeUnit.afterMove_name, if_neg, hparent]
        intro hcu
        obtain ⟨c', hc', hname', hparent'⟩ := h.children_linked u hu c.name hcu
        obtain rfl := hsame hc' hc hname'
        rw [hparent, Option.some.injEq] at hparent'
        exact hne hparent'
  · intro v hv parent hparent
    rcases hmem.mp hv with rfl | ⟨v₀, hv₀, rfl⟩
    · simp [CodeUnit.preservedAs] at hparent
    · rw [CodeUnit.afterMove_parent] at hparent
      split at hparent
      · rename_i hchild
        exact ⟨u.preservedAs name, hmem.mpr (.inl rfl), Option.some.inj hparent,
          by rw [CodeUnit.afterMove_name]; exact hchild⟩
      · rename_i hchild
        obtain ⟨p, hp, rfl, hlisted⟩ := h.parents_linked v₀ hv₀ parent hparent
        refine ⟨u.afterMove name p, hmem.mpr (.inr ⟨p, hp, rfl⟩), u.afterMove_name name p, ?_⟩
        rw [CodeUnit.afterMove_children, if_neg, CodeUnit.afterMove_name]
        · exact hlisted
        · intro hpu
          obtain rfl := hsame hp hu hpu
          exact hchild hlisted

@[simp]
theorem setBody_outline (index : Nat) (body : List Instruction) :
    (image.setBody index body).units.map CodeUnit.outline = image.units.map CodeUnit.outline :=
  map_modify_eq CodeUnit.outline (·.withBody body) (fun _ ↦ rfl) image.units index

end Image

end HookPatch
