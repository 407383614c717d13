import HookPatch.Proofs.Mod.Reasons

namespace HookPatch

namespace LoadOrder

variable {available : List Mod} {allowed denied : List String} {order : LoadOrder} {m : Mod}

/-- What is asked of the load order of the available mods. The selected mods are taken in the order in
which they are available. -/
structure Resolves (available : List Mod) (allowed denied : List String) (order : LoadOrder) :
    Prop where
  ids_nodup : order.ids.Nodup
  mem_mods_iff : ∀ m, m ∈ order.mods ↔ m ∈ available ∧
    (isSelected allowed denied m ∧
        (∀ dependency ∈ m.metadata.dependencies, dependency ∈ available.map Mod.id) ∨
      ∃ s ∈ available, isSelected allowed denied s ∧ m.id ∈ s.metadata.dependencies)
  dependencies_before : ∀ earlier s later,
    available.filter (isSelected allowed denied) = earlier ++ s :: later →
    (∀ dependency ∈ s.metadata.dependencies, dependency ∈ available.map Mod.id) →
    (∀ r ∈ earlier ++ [s], s.id ∉ r.metadata.dependencies) →
    ∃ before after, order.ids = before ++ s.id :: after ∧ s.metadata.dependencies ⊆ before
  excluded_eq : order.excluded = (available.filter (isSelected allowed denied)).flatMap fun s ↦
    (s.metadata.dependencies.filter (· ∉ available.map Mod.id)).map (MissingDependency.mk s.id)

theorem mods_prefix_foldl_add (l : List Mod) (order : LoadOrder) :
    order.mods <+: (l.foldl add order).mods := by
  induction l generalizing order with
  | nil => exact List.prefix_rfl
  | cons m l ih =>
    have hadd : order.mods <+: (order.add m).mods := by
      rw [add_mods]
      split
      · exact List.prefix_rfl
      · exact List.prefix_append _ _
    exact hadd.trans (ih (order.add m))

/-- A mod that has no place when its turn comes is placed after all mods added before. -/
theorem ids_foldl_add_of_new {l : List Mod} (hnew : ∀ a ∈ l, a.id ≠ m.id) (l' : List Mod) :
    ∃ before after, ((l ++ m :: l').foldl add {}).ids = before ++ m.id :: after ∧
      l.map Mod.id ⊆ before := by
  let placed : LoadOrder := l.foldl add {}
  have hfree : ¬ placed.contains m.id := by
    intro hcontains
    obtain ⟨a, ha, hid⟩ := List.any_eq_true.mp hcontains
    have hmem : a ∈ l := (mem_of_mem_foldl_add ha).resolve_left List.not_mem_nil
    exact hnew a hmem (by simpa using hid)
  have hadd : (placed.add m).mods = placed.mods ++ [m] := by rw [add_mods, if_neg hfree]
  obtain ⟨rest, hrest⟩ := mods_prefix_foldl_add l' (placed.add m)
  refine ⟨placed.ids, rest.map Mod.id, ?_, fun id hid ↦ ?_⟩
  · rw [List.foldl_append, List.foldl_cons, ids, ← hrest, hadd, List.map_append, List.map_append,
      List.append_assoc]
    rfl
  · exact ids_subset_foldl_add l {} (List.mem_append_right _ hid)

theorem brought_of_complete
    (h : ∀ dependency ∈ m.metadata.dependencies, dependency ∈ available.map Mod.id) :
    ∃ found, brought available m = found ++ [m] ∧ m.metadata.dependencies ⊆ found.map Mod.id ∧
      ∀ a ∈ found, a.id ∈ m.metadata.dependencies := by
  refine ⟨_, by rw [brought, if_pos (isComplete_iff.mpr h)], ?_, ?_⟩
  · intro dependency hmem
    obtain ⟨a, ha, hid⟩ := List.mem_map.mp (h dependency hmem)
    obtain ⟨b, hb⟩ : ∃ b, available.find? (·.id = dependency) = some b :=
      Option.isSome_iff_exists.mp (List.find?_isSome.mpr ⟨a, ha, by simpa using hid⟩)
    have hid : b.id = dependency := by simpa using List.find?_some hb
    exact List.mem_map.mpr ⟨b, List.mem_filterMap.mpr ⟨dependency, hmem, hb⟩, hid⟩
  · intro a ha
    obtain ⟨dependency, hmem, hfind⟩ := List.mem_filterMap.mp ha
    have hid : a.id = dependency := by simpa using List.find?_some hfind
    rwa [hid]

theorem dependencies_before (hdistinct : (available.map Mod.id).Nodup) {earlier later : List Mod}
    (hselected : available.filter (isSelected allowed denied) = earlier ++ m :: later)
    (hcomplete : ∀ dependency ∈ m.metadata.dependencies, dependency ∈ available.map Mod.id)
    (hfirst : ∀ r ∈ earlier ++ [m], m.id ∉ r.metadata.dependencies) :
    ∃ before after, (ofMods available allowed denied).ids = before ++ m.id :: after ∧
      m.metadata.dependencies ⊆ before := by
  obtain ⟨found, hbrought, hdependencies, hfound⟩ := brought_of_complete hcomplete
  have hids : ((earlier ++ m :: later).map Mod.id).Nodup :=
    hselected ▸ hdistinct.sublist (List.filter_sublist.map Mod.id)
  -- an earlier mod brings others only as its dependencies, and itself, which is another mod
  have hnew : ∀ a ∈ earlier.flatMap (brought available) ++ found, a.id ≠ m.id := by
    intro a ha hid
    rcases List.mem_append.mp ha with ha | ha
    · obtain ⟨r, hr, ha⟩ := List.mem_flatMap.mp ha
      have hrs : r ∈ available.filter (isSelected allowed denied) :=
        hselected ▸ List.mem_append_left _ hr
      obtain ⟨-, hneeded | ⟨rfl, -⟩⟩ := (mem_brought hdistinct (mem_selected.mp hrs).1).mp ha
      · exact hfirst r (List.mem_append_left _ hr) (hid ▸ hneeded)
      · rw [List.map_append, List.map_cons, List.nodup_append] at hids
        exact hids.2.2 _ (List.mem_map_of_mem hr) _ List.mem_cons_self hid
    · exact hfirst m List.mem_concat_self (hid ▸ hfound a ha)
  obtain ⟨before, after, horder, hbefore⟩ :=
    ids_foldl_add_of_new hnew (later.flatMap (brought available))
  refine ⟨before, after, ?_, fun dependency hmem ↦ hbefore ?_⟩
  · obtain ⟨hmods, -⟩ := foldl_consider available (earlier ++ m :: later) {}
    rw [← horder, ofMods, hselected, ids, ids, hmods, List.flatMap_append, List.flatMap_cons, hbrought]
    simp only [List.append_assoc, List.singleton_append]
  · rw [List.map_append]
    exact List.mem_append_right _ (hdependencies hmem)

/-- The load order of mods with pairwise distinct ids. -/
theorem ofMods_resolves (hdistinct : (available.map Mod.id).Nodup) (allowed denied : List String) :
    Resolves available allowed denied (ofMods available allowed denied) where
  ids_nodup := ids_nodup available allowed denied
  mem_mods_iff m := by rw [mem_mods hdistinct, isComplete_iff, or_comm]
  dependencies_before _ _ _ := dependencies_before hdistinct
  excluded_eq := by
    have hexcluded := (foldl_consider available (available.filter (isSelected allowed denied)) {}).2
    rw [ofMods, hexcluded]
    refine congrArg (fun f ↦ List.flatMap f _) (funext fun s ↦ ?_)
    rw [missing]
    refine congrArg (List.map _) (List.filter_congr fun dependency _ ↦ ?_)
    rw [Bool.eq_iff_iff, Bool.not_eq_true', ← Bool.not_eq_true, isKnown_iff, decide_eq_true_iff]

/-- A mod that depends on itself, two that depend on each other, of which one is denied, one that lacks
a dependency twice, and one that comes after all that it depends on. -/
def tangledMods : List Mod :=
  [bareMod "own" ["own", "lib"], bareMod "lib" ["core"], bareMod "app" ["lib", "ghost", "ghost"],
    bareMod "core" ["lib"], bareMod "top" ["core", "app"]]

theorem tangledMods_nodup : (tangledMods.map Mod.id).Nodup := by decide

theorem ofMods_resolves_tangled :
    (tangledMods.map Mod.id).Nodup ∧
      Resolves tangledMods [] ["core"] (ofMods tangledMods [] ["core"]) ∧
      ∃ before after, (ofMods tangledMods [] ["core"]).ids = before ++ "top" :: after ∧
        ["core", "app"] ⊆ before := by
  have hresolves := ofMods_resolves tangledMods_nodup [] ["core"]
  refine ⟨tangledMods_nodup, hresolves, ?_⟩
  exact hresolves.dependencies_before
    [bareMod "own" ["own", "lib"], bareMod "lib" ["core"], bareMod "app" ["lib", "ghost", "ghost"]]
    (bareMod "top" ["core", "app"]) [] (by decide) (by decide) (by decide)

end LoadOrder

end HookPatch
