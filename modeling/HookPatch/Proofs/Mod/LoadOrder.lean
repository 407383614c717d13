import HookPatch.Mod.LoadOrder
import HookPatch.Proofs.Lookup

namespace HookPatch

namespace LoadOrder

def isKnown (available : List Mod) (id : String) : Bool := available.any (·.id = id)

/-- What a selected mod adds to the order, unless it has a place already. -/
def brought (available : List Mod) (m : Mod) : List Mod :=
  (m.metadata.dependencies.filterMap fun dependency ↦ available.find? (·.id = dependency)) ++
    if isComplete available m then [m] else []

def missing (available : List Mod) (m : Mod) : List MissingDependency :=
  (m.metadata.dependencies.filter (!isKnown available ·)).map (MissingDependency.mk m.id)

variable {available : List Mod} {allowed denied : List String} {order : LoadOrder} {m : Mod}

theorem isKnown_iff {id : String} : isKnown available id ↔ id ∈ available.map Mod.id := by
  simp [isKnown]

theorem isComplete_iff :
    isComplete available m ↔ ∀ dependency ∈ m.metadata.dependencies,
      dependency ∈ available.map Mod.id := by
  simp only [isComplete, List.all_eq_true, ← isKnown_iff, isKnown]

theorem mem_missing {d : MissingDependency} : d ∈ missing available m ↔
    d.modId = m.id ∧ d.dependency ∈ m.metadata.dependencies ∧
      d.dependency ∉ available.map Mod.id := by
  obtain ⟨modId, dependency⟩ := d
  rw [missing, List.mem_map, ← isKnown_iff]
  constructor
  · rintro ⟨dependency', hmem, heq⟩
    obtain ⟨rfl, rfl⟩ := MissingDependency.mk.inj heq
    rw [List.mem_filter] at hmem
    exact ⟨rfl, hmem.1, by simpa using hmem.2⟩
  · rintro ⟨rfl, hmem, hknown⟩
    exact ⟨dependency, List.mem_filter.mpr ⟨hmem, by simpa using hknown⟩, rfl⟩

theorem add_excluded : (order.add m).excluded = order.excluded := by
  unfold add
  split <;> rfl

theorem add_mods (order : LoadOrder) (m : Mod) : (order.add m).mods =
    if order.contains m.id then order.mods else order.mods ++ [m] := by
  unfold add
  split <;> rfl

theorem add_mods_congr {order' : LoadOrder} (h : order.mods = order'.mods) (m : Mod) :
    (order.add m).mods = (order'.add m).mods := by
  rw [add_mods, add_mods, contains, contains, h]

theorem foldl_add_mods_congr {order' : LoadOrder} (h : order.mods = order'.mods) (l : List Mod) :
    (l.foldl add order).mods = (l.foldl add order').mods := by
  induction l generalizing order order' with
  | nil => exact h
  | cons m l ih => exact ih (add_mods_congr h m)

theorem foldl_require (available : List Mod) (dependencies : List String) (modId : String) (order : LoadOrder) :
    (dependencies.foldl (require available modId) order).mods =
        ((dependencies.filterMap fun dependency ↦
          available.find? (·.id = dependency)).foldl add order).mods ∧
      (dependencies.foldl (require available modId) order).excluded = order.excluded ++
        (dependencies.filter (!isKnown available ·)).map (MissingDependency.mk modId) := by
  induction dependencies generalizing order with
  | nil => exact ⟨rfl, (List.append_nil _).symm⟩
  | cons dependency dependencies ih =>
    cases hfind : available.find? (·.id = dependency) with
    | none =>
      have hknown : isKnown available dependency = false := by
        simpa [isKnown] using List.find?_eq_none.mp hfind
      obtain ⟨hmods, hexcluded⟩ := ih (require available modId order dependency)
      rw [List.foldl_cons, List.filter_cons_of_pos (by simp [hknown])]
      simp only [List.filterMap_cons, hfind]
      refine ⟨hmods.trans (foldl_add_mods_congr ?_ _), hexcluded.trans ?_⟩
      · simp only [require, hfind]
      · simp [require, hfind]
    | some m =>
      have hknown : isKnown available dependency = true := by
        have hm := List.find?_some hfind
        exact List.any_eq_true.mpr ⟨m, List.mem_of_find?_eq_some hfind, hm⟩
      obtain ⟨hmods, hexcluded⟩ := ih (require available modId order dependency)
      rw [List.foldl_cons, List.filter_cons_of_neg (by simp [hknown])]
      simp only [List.filterMap_cons, hfind]
      refine ⟨hmods.trans ?_, hexcluded.trans ?_⟩
      · simp only [require, hfind, List.foldl_cons]
      · simp only [require, hfind, add_excluded]

theorem consider_spec (available : List Mod) (order : LoadOrder) (m : Mod) :
    (consider available order m).mods = ((brought available m).foldl add order).mods ∧
      (consider available order m).excluded = order.excluded ++ missing available m := by
  obtain ⟨hmods, hexcluded⟩ := foldl_require available m.metadata.dependencies m.id order
  rw [consider, brought, List.foldl_append]
  split
  · exact ⟨add_mods_congr hmods m, add_excluded.trans hexcluded⟩
  · exact ⟨hmods, hexcluded⟩

theorem foldl_consider (available l : List Mod) (order : LoadOrder) :
    (l.foldl (consider available) order).mods =
        ((l.flatMap (brought available)).foldl add order).mods ∧
      (l.foldl (consider available) order).excluded =
        order.excluded ++ l.flatMap (missing available) := by
  induction l generalizing order with
  | nil => exact ⟨rfl, (List.append_nil _).symm⟩
  | cons m l ih =>
    obtain ⟨hmods, hexcluded⟩ := ih (consider available order m)
    obtain ⟨hmods', hexcluded'⟩ := consider_spec available order m
    rw [List.foldl_cons, List.flatMap_cons, List.foldl_append, List.flatMap_cons,
      ← List.append_assoc, ← hexcluded']
    exact ⟨hmods.trans (foldl_add_mods_congr hmods' _), hexcluded⟩

theorem mem_of_mem_foldl_add {l : List Mod} (h : m ∈ (l.foldl add order).mods) :
    m ∈ order.mods ∨ m ∈ l := by
  induction l generalizing order with
  | nil => exact .inl h
  | cons a l ih =>
    rcases ih h with h | h
    · rw [add_mods] at h
      split at h
      · exact .inl h
      · rcases List.mem_append.mp h with h | h
        · exact .inl h
        · exact .inr (List.mem_singleton.mp h ▸ List.mem_cons_self)
    · exact .inr (List.mem_cons_of_mem _ h)

theorem ids_subset_add (order : LoadOrder) (m : Mod) :
    order.ids ⊆ (order.add m).ids ∧ m.id ∈ (order.add m).ids := by
  unfold add
  split
  · rename_i hcontains
    refine ⟨List.Subset.refl _, ?_⟩
    simpa [contains, ids] using hcontains
  · simp [ids]

theorem ids_subset_foldl_add (l : List Mod) (order : LoadOrder) :
    order.ids ++ l.map Mod.id ⊆ (l.foldl add order).ids := by
  induction l generalizing order with
  | nil => simp
  | cons a l ih =>
    obtain ⟨hids, ha⟩ := ids_subset_add order a
    intro id hid
    refine ih (order.add a) (List.mem_append.mpr ?_)
    rcases List.mem_append.mp hid with hid | hid
    · exact .inl (hids hid)
    · rcases List.mem_cons.mp hid with rfl | hid
      · exact .inl ha
      · exact .inr hid

theorem ids_nodup_add (h : order.ids.Nodup) (m : Mod) : (order.add m).ids.Nodup := by
  rw [ids, add_mods]
  split
  · exact h
  · rename_i hcontains
    rw [List.map_append, List.nodup_append]
    refine ⟨h, List.nodup_singleton _, ?_⟩
    intro id hid id' hid' heq
    obtain ⟨m', hm', rfl⟩ := List.mem_map.mp hid
    rw [List.map_singleton, List.mem_singleton] at hid'
    apply hcontains
    rw [contains, List.any_eq_true]
    exact ⟨m', hm', by simp [heq, hid']⟩

theorem ids_nodup (available : List Mod) (allowed denied : List String) :
    (ofMods available allowed denied).ids.Nodup := by
  obtain ⟨hmods, -⟩ :=
    foldl_consider available (available.filter (isSelected allowed denied)) {}
  rw [ids, ofMods, hmods]
  generalize (available.filter (isSelected allowed denied)).flatMap (brought available) = ms
  have hempty : ({} : LoadOrder).ids.Nodup := List.nodup_nil
  generalize ({} : LoadOrder) = order at hempty
  induction ms generalizing order with
  | nil => exact hempty
  | cons m ms ih => exact ih (order.add m) (ids_nodup_add hempty m)

theorem mem_available (h : m ∈ (ofMods available allowed denied).mods) : m ∈ available := by
  obtain ⟨hmods, -⟩ :=
    foldl_consider available (available.filter (isSelected allowed denied)) {}
  rw [ofMods, hmods] at h
  obtain ⟨s, hs, hbrought⟩ :=
    List.mem_flatMap.mp ((mem_of_mem_foldl_add h).resolve_left List.not_mem_nil)
  rw [brought, List.mem_append, List.mem_filterMap] at hbrought
  rcases hbrought with ⟨dependency, -, hfind⟩ | hself
  · exact List.mem_of_find?_eq_some hfind
  · split at hself
    · rw [List.mem_singleton.mp hself]
      exact (List.mem_filter.mp hs).1
    · cases hself

theorem mem_selected {s : Mod} : s ∈ available.filter (isSelected allowed denied) ↔
    s ∈ available ∧ isSelected allowed denied s := List.mem_filter

theorem mem_excluded {d : MissingDependency} : d ∈ (ofMods available allowed denied).excluded ↔
    ∃ s ∈ available, isSelected allowed denied s ∧ d ∈ missing available s := by
  obtain ⟨-, hexcluded⟩ :=
    foldl_consider available (available.filter (isSelected allowed denied)) {}
  rw [ofMods, hexcluded]
  simp only [List.nil_append, List.mem_flatMap, mem_selected, and_assoc]

section Distinct

variable (hdistinct : (available.map Mod.id).Nodup)

include hdistinct

theorem mem_brought {s : Mod} (hs : s ∈ available) : m ∈ brought available s ↔
    m ∈ available ∧ (m.id ∈ s.metadata.dependencies ∨ m = s ∧ isComplete available s) := by
  have hfound : (∃ dependency ∈ s.metadata.dependencies,
      available.find? (·.id = dependency) = some m) ↔
      m ∈ available ∧ m.id ∈ s.metadata.dependencies := by
    simp only [find?_eq_some_iff_of_nodup hdistinct]
    constructor
    · rintro ⟨dependency, hmem, hm, rfl⟩
      exact ⟨hm, hmem⟩
    · rintro ⟨hm, hmem⟩
      exact ⟨m.id, hmem, hm, rfl⟩
  rw [brought, List.mem_append, List.mem_filterMap, hfound]
  split
  · rename_i hcomplete
    rw [List.mem_singleton]
    constructor
    · rintro (⟨hm, hmem⟩ | rfl)
      · exact ⟨hm, .inl hmem⟩
      · exact ⟨hs, .inr ⟨rfl, hcomplete⟩⟩
    · rintro ⟨hm, hmem | ⟨rfl, -⟩⟩
      · exact .inl ⟨hm, hmem⟩
      · exact .inr rfl
  · rename_i hcomplete
    simp [hcomplete]

/-- The mods of the order: dependencies of selected mods, and selected mods that lack none. -/
theorem mem_mods : m ∈ (ofMods available allowed denied).mods ↔ m ∈ available ∧
    ((∃ s ∈ available, isSelected allowed denied s ∧ m.id ∈ s.metadata.dependencies) ∨
      isSelected allowed denied m ∧ isComplete available m) := by
  let selected := available.filter (isSelected allowed denied)
  have hmods : (ofMods available allowed denied).mods =
      ((selected.flatMap (brought available)).foldl add {}).mods :=
    (foldl_consider available selected {}).1
  have hbrought : m ∈ selected.flatMap (brought available) ↔ m ∈ available ∧
      ((∃ s ∈ available, isSelected allowed denied s ∧ m.id ∈ s.metadata.dependencies) ∨
        isSelected allowed denied m ∧ isComplete available m) := by
    rw [List.mem_flatMap]
    constructor
    · rintro ⟨s, hs, hbrought⟩
      obtain ⟨hs, hselected⟩ := mem_selected.mp hs
      obtain ⟨hm, hmem | ⟨rfl, hcomplete⟩⟩ := (mem_brought hdistinct hs).mp hbrought
      · exact ⟨hm, .inl ⟨s, hs, hselected, hmem⟩⟩
      · exact ⟨hm, .inr ⟨hselected, hcomplete⟩⟩
    · rintro ⟨hm, ⟨s, hs, hselected, hmem⟩ | ⟨hselected, hcomplete⟩⟩
      · exact ⟨s, mem_selected.mpr ⟨hs, hselected⟩,
          (mem_brought hdistinct hs).mpr ⟨hm, .inl hmem⟩⟩
      · exact ⟨m, mem_selected.mpr ⟨hm, hselected⟩,
          (mem_brought hdistinct hm).mpr ⟨hm, .inr ⟨rfl, hcomplete⟩⟩⟩
  rw [← hbrought, hmods]
  constructor
  · intro h
    exact (mem_of_mem_foldl_add h).resolve_left List.not_mem_nil
  · intro h
    -- A mod that is brought has its id in the order, and with it itself.
    have hid : m.id ∈ ((selected.flatMap (brought available)).foldl add {}).ids :=
      ids_subset_foldl_add _ {} (List.mem_append_right _ (List.mem_map_of_mem h))
    obtain ⟨m', hm', hsame⟩ := List.mem_map.mp hid
    have hbrought' := (mem_of_mem_foldl_add hm').resolve_left List.not_mem_nil
    have hmem : ∀ a ∈ selected.flatMap (brought available), a ∈ available := by
      intro a ha
      obtain ⟨s, hs, ha⟩ := List.mem_flatMap.mp ha
      exact ((mem_brought hdistinct (mem_selected.mp hs).1).mp ha).1
    rwa [← List.inj_on_of_nodup_map hdistinct (hmem m' hbrought') (hmem m h) hsame]

end Distinct

end LoadOrder

end HookPatch
