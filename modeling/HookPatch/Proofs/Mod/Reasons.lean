import HookPatch.Proofs.Mod.LoadOrder

namespace HookPatch

namespace LoadOrder

def Lacks (available : List Mod) (m : Mod) : Prop :=
  ∃ dependency ∈ m.metadata.dependencies, dependency ∉ available.map Mod.id

variable {available : List Mod} {allowed denied : List String} {m : Mod}

theorem lacks_iff : Lacks available m ↔ ¬ isComplete available m := by
  rw [isComplete_iff, Lacks]
  push Not
  rfl

theorem mem_excluded_ids {id : String} :
    id ∈ (ofMods available allowed denied).excluded.map (·.modId) ↔
      ∃ s ∈ available, s.id = id ∧ isSelected allowed denied s ∧ Lacks available s := by
  rw [List.mem_map]
  constructor
  · rintro ⟨d, hd, rfl⟩
    obtain ⟨s, hs, hselected, hd⟩ := mem_excluded.mp hd
    obtain ⟨hid, hmem, hunknown⟩ := mem_missing.mp hd
    exact ⟨s, hs, hid.symm, hselected, d.dependency, hmem, hunknown⟩
  · rintro ⟨s, hs, rfl, hselected, dependency, hmem, hunknown⟩
    have hd : { modId := s.id, dependency } ∈ missing available s :=
      mem_missing.mpr ⟨rfl, hmem, hunknown⟩
    exact ⟨_, mem_excluded.mpr ⟨s, hs, hselected, hd⟩, rfl⟩

/-- A mod that lacks a dependency loads just when a selected mod depends on it. So does one that is
reported as left out. -/
theorem lacking_mods (hdistinct : (available.map Mod.id).Nodup) (allowed denied : List String) :
    let order := ofMods available allowed denied
    (∀ m, m ∈ order.mods ∧ Lacks available m ↔ m ∈ available ∧ Lacks available m ∧
        ∃ s ∈ available, isSelected allowed denied s ∧ m.id ∈ s.metadata.dependencies) ∧
      ∀ id, id ∈ order.ids ∧ id ∈ order.excluded.map (·.modId) ↔
        ∃ m ∈ available, m.id = id ∧ isSelected allowed denied m ∧ Lacks available m ∧
          ∃ s ∈ available, isSelected allowed denied s ∧ id ∈ s.metadata.dependencies := by
  intro order
  have hmods : ∀ m, m ∈ order.mods ∧ Lacks available m ↔ m ∈ available ∧ Lacks available m ∧
      ∃ s ∈ available, isSelected allowed denied s ∧ m.id ∈ s.metadata.dependencies := by
    intro m
    rw [mem_mods hdistinct, lacks_iff]
    constructor
    · rintro ⟨⟨hm, hneeded | ⟨-, hcomplete⟩⟩, hlacks⟩
      · exact ⟨hm, hlacks, hneeded⟩
      · exact absurd hcomplete hlacks
    · rintro ⟨hm, hlacks, hneeded⟩
      exact ⟨⟨hm, .inl hneeded⟩, hlacks⟩
  refine ⟨hmods, fun id ↦ ?_⟩
  rw [mem_excluded_ids, ids, List.mem_map]
  constructor
  · rintro ⟨⟨m, hm, hid⟩, s, hs, rfl, hselected, hlacks⟩
    have hmem : m ∈ available := ((mem_mods hdistinct).mp hm).1
    obtain rfl := List.inj_on_of_nodup_map hdistinct hmem hs hid
    exact ⟨m, hs, rfl, hselected, hlacks, ((hmods m).mp ⟨hm, hlacks⟩).2.2⟩
  · rintro ⟨m, hm, rfl, hselected, hlacks, hneeded⟩
    exact ⟨⟨m, ((hmods m).mpr ⟨hm, hlacks, hneeded⟩).1, rfl⟩, m, hm, rfl, hselected, hlacks⟩

def bareMod (id : String) (dependencies : List String) : Mod where
  metadata := { name := id, id, version := "1", dependencies }
  directory := ⟨"mods/" ++ id⟩

def chainedMods : List Mod := [bareMod "app" ["lib"], bareMod "lib" ["ghost"]]

theorem chainedMods_nodup : (chainedMods.map Mod.id).Nodup := by decide

theorem lacking_mods_chained :
    (chainedMods.map Mod.id).Nodup ∧
      (bareMod "lib" ["ghost"] ∈ (ofMods chainedMods [] []).mods ∧
        Lacks chainedMods (bareMod "lib" ["ghost"])) ∧
      "lib" ∈ (ofMods chainedMods [] []).excluded.map (·.modId) := by
  obtain ⟨hmods, hids⟩ := lacking_mods chainedMods_nodup [] []
  have hlacks : Lacks chainedMods (bareMod "lib" ["ghost"]) := ⟨"ghost", by decide, by decide⟩
  have hneeded : ∃ s ∈ chainedMods, isSelected [] [] s ∧ "lib" ∈ s.metadata.dependencies :=
    ⟨bareMod "app" ["lib"], by decide, by decide, by decide⟩
  refine ⟨chainedMods_nodup, (hmods _).mpr ⟨by decide, hlacks, hneeded⟩, ?_⟩
  exact ((hids "lib").mpr ⟨_, by decide, rfl, by decide, hlacks, hneeded⟩).2

/-- A mod is in the order that lacks a dependency, and is reported for that as left out. -/
theorem lacking_mod_loads :
    (chainedMods.map Mod.id).Nodup ∧
      ∃ m ∈ (ofMods chainedMods [] []).mods,
        (∃ dependency ∈ m.metadata.dependencies, dependency ∉ chainedMods.map Mod.id) ∧
          m.id ∈ (ofMods chainedMods [] []).excluded.map (·.modId) :=
  ⟨chainedMods_nodup, bareMod "lib" ["ghost"], by decide, ⟨"ghost", by decide, by decide⟩,
    by decide⟩

/-- A mod that loads is selected or a dependency of a selected mod, which loads too or is reported as
left out. One that is not selected loads just when a selected mod depends on it. All dependencies of a
selected mod load that there are, and so does the mod itself if none is missing. -/
theorem mods_justified (hdistinct : (available.map Mod.id).Nodup) (allowed denied : List String) :
    let order := ofMods available allowed denied
    (∀ m ∈ order.mods, isSelected allowed denied m ∨
        ∃ s ∈ available, isSelected allowed denied s ∧ m.id ∈ s.metadata.dependencies ∧
          (s ∈ order.mods ∨ s.id ∈ order.excluded.map (·.modId))) ∧
      (∀ m ∈ available, ¬ isSelected allowed denied m →
        (m ∈ order.mods ↔
          ∃ s ∈ available, isSelected allowed denied s ∧ m.id ∈ s.metadata.dependencies)) ∧
      ∀ s ∈ available, isSelected allowed denied s →
        (∀ m ∈ available, m.id ∈ s.metadata.dependencies → m ∈ order.mods) ∧
          (¬ Lacks available s → s ∈ order.mods) := by
  intro order
  refine ⟨?_, ?_, ?_⟩
  · intro m hm
    obtain ⟨-, ⟨s, hs, hselected, hneeds⟩ | ⟨hselected, -⟩⟩ := (mem_mods hdistinct).mp hm
    · refine .inr ⟨s, hs, hselected, hneeds, ?_⟩
      by_cases hcomplete : isComplete available s
      · exact .inl ((mem_mods hdistinct).mpr ⟨hs, .inr ⟨hselected, hcomplete⟩⟩)
      · exact .inr (mem_excluded_ids.mpr ⟨s, hs, rfl, hselected, lacks_iff.mpr hcomplete⟩)
    · exact .inl hselected
  · intro m hm hunselected
    rw [mem_mods hdistinct]
    constructor
    · rintro ⟨-, hneeded | ⟨hselected, -⟩⟩
      · exact hneeded
      · exact absurd hselected hunselected
    · intro hneeded
      exact ⟨hm, .inl hneeded⟩
  · intro s hs hselected
    constructor
    · intro m hm hneeds
      exact (mem_mods hdistinct).mpr ⟨hm, .inl ⟨s, hs, hselected, hneeds⟩⟩
    · intro hlacks
      have hcomplete : isComplete available s := not_not.mp (mt lacks_iff.mpr hlacks)
      exact (mem_mods hdistinct).mpr ⟨hs, .inr ⟨hselected, hcomplete⟩⟩

def halfMods : List Mod := [bareMod "app" ["lib", "ghost"], bareMod "lib" []]

theorem halfMods_nodup : (halfMods.map Mod.id).Nodup := by decide

theorem mods_justified_half :
    (halfMods.map Mod.id).Nodup ∧ bareMod "lib" [] ∈ (ofMods halfMods [] ["lib"]).mods ∧
      ∃ s ∈ halfMods, isSelected [] ["lib"] s ∧ "lib" ∈ s.metadata.dependencies ∧
        (s ∈ (ofMods halfMods [] ["lib"]).mods ∨
          s.id ∈ (ofMods halfMods [] ["lib"]).excluded.map (·.modId)) := by
  obtain ⟨hreason, hunselected, -⟩ := mods_justified halfMods_nodup [] ["lib"]
  have hlib : bareMod "lib" [] ∈ (ofMods halfMods [] ["lib"]).mods :=
    (hunselected _ (by decide) (by decide)).mpr
      ⟨bareMod "app" ["lib", "ghost"], by decide, by decide, by decide⟩
  exact ⟨halfMods_nodup, hlib, (hreason _ hlib).resolve_left (by decide)⟩

/-- A denied mod loads that no mod of the order depends on, for a mod that is left out. -/
theorem denied_mod_loads :
    (halfMods.map Mod.id).Nodup ∧
      ∃ m ∈ (ofMods halfMods [] ["lib"]).mods, ¬ isSelected [] ["lib"] m ∧
        ∀ s ∈ (ofMods halfMods [] ["lib"]).mods, m.id ∉ s.metadata.dependencies :=
  ⟨halfMods_nodup, bareMod "lib" [], by decide, by decide, by decide⟩

end LoadOrder

end HookPatch
