import HookPatch.Session.GeneratedNames
import Mathlib.Data.List.Nodup
import Std.Data.String.ToNat

namespace HookPatch

open GeneratedNames

/-- A list that has the value of every number within reach has one for each number there is. -/
theorem size_le_of_forall_mem {α : Type} {f : UInt32 → α} (hf : Function.Injective f) {l : List α}
    {n : UInt32} (h : ∀ k ≤ l.length, f (n + UInt32.ofNat k) ∈ l) : UInt32.size ≤ l.length := by
  by_contra hlt
  let tried := (List.range (l.length + 1)).map fun k ↦ f (n + UInt32.ofNat k)
  have hnodup : tried.Nodup := by
    refine List.Nodup.map_on (fun i hi j hj hij ↦ ?_) List.nodup_range
    have hij := (UInt32.add_right_inj _).mp (hf hij)
    rw [List.mem_range] at hi hj
    have hij' := congrArg UInt32.toNat hij
    rwa [UInt32.toNat_ofNat_of_lt' (by omega), UInt32.toNat_ofNat_of_lt' (by omega)] at hij'
  have hsub : tried ⊆ l := by
    intro a ha
    obtain ⟨k, hk, rfl⟩ := List.mem_map.mp ha
    rw [List.mem_range] at hk
    exact h k (by omega)
  have hle := hnodup.length_le_of_subset hsub
  rw [List.length_map, List.length_range] at hle
  omega

namespace Image

def names (image : Image) : List String :=
  image.units.map (·.name) ++ image.functions.map (·.name) ++ image.nativeFunctions.map (·.name)

theorem length_names (image : Image) : image.names.length = namesTaken image := by
  simp only [names, namesTaken, List.length_append, List.length_map]

theorem isSome_unit? {image : Image} {name : String} :
    (image.unit? name).isSome ↔ name ∈ image.units.map (·.name) := by
  simp [unit?, List.find?_isSome]

theorem isSome_function? {image : Image} {name : String} :
    (image.function? name).isSome ↔ name ∈ image.functions.map (·.name) := by
  simp [function?, List.find?_isSome]

theorem isSome_nativeFunction? {image : Image} {name : String} :
    (image.nativeFunction? name).isSome ↔ name ∈ image.nativeFunctions.map (·.name) := by
  simp [nativeFunction?, List.find?_isSome]

theorem isCallable_iff {image : Image} {name : String} :
    image.isCallable name ↔
      name ∈ image.units.map (·.name) ∨ name ∈ image.functions.map (·.name) := by
  rw [isCallable, Bool.or_eq_true, isSome_unit?, isSome_function?]

theorem hasName_iff {image : Image} {name : String} : image.hasName name ↔ name ∈ image.names := by
  rw [hasName, Bool.or_eq_true, isCallable_iff, isSome_nativeFunction?, names, List.mem_append,
    List.mem_append]

def HasSpareName (image : Image) (base role : String) : Prop :=
  ∃ n, name base role n ∉ image.names

end Image

namespace GeneratedNames

theorem name_injective (base role : String) : Function.Injective (name base role) := by
  intro m n h
  have hlists := congrArg String.toList h
  simp only [name, String.toList_append, List.append_cancel_left_eq] at hlists
  exact UInt32.toNat_inj.mp (Nat.repr_injective (String.toList_inj.mp hlists))

/-- A search that comes to no free name has passed over all numbers that it could look at. -/
theorem firstFree_taken {image : Image} {base role : String} {fuel : Nat} {n : UInt32}
    (h : name base role (firstFree image base role fuel n) ∈ image.names) (k : Nat) (hk : k ≤ fuel) :
    name base role (n + UInt32.ofNat k) ∈ image.names := by
  induction fuel generalizing n k with
  | zero =>
    obtain rfl : k = 0 := by omega
    simpa [firstFree] using h
  | succ fuel ih =>
    rw [firstFree] at h
    split at h
    · rename_i htaken
      cases k with
      | zero => simpa using Image.hasName_iff.mp htaken
      | succ k =>
        have hnext := ih h k (by omega)
        rwa [show n + 1 + UInt32.ofNat k = n + UInt32.ofNat (k + 1) by
          rw [UInt32.ofNat_add, UInt32.add_assoc, UInt32.add_comm 1]; rfl] at hnext
    · rename_i hfree
      exact absurd (Image.hasName_iff.mpr h) hfree

/-- There are more numbers within reach than names taken, unless all numbers are within reach. -/
theorem next_fresh (g : GeneratedNames) {image : Image} {base role : String}
    (hspare : image.HasSpareName base role) : (g.next image base role).1 ∉ image.names := by
  intro htaken
  have hall := firstFree_taken htaken
  rw [← Image.length_names] at hall
  have hsize := size_le_of_forall_mem (name_injective base role) hall
  obtain ⟨n, hn⟩ := hspare
  have hlt := (n - (g.counter + 1)).toNat_lt_size
  have hback := hall (n - (g.counter + 1)).toNat (by omega)
  rw [UInt32.ofNat_toNat, UInt32.add_comm, UInt32.sub_add_cancel] at hback
  exact hn hback

theorem hasSpareName_of_lt {image : Image} (h : namesTaken image < UInt32.size) (base role : String) :
    image.HasSpareName base role := by
  by_contra hnone
  have htaken : ∀ n, name base role n ∈ image.names := by
    simpa only [Image.HasSpareName, not_exists, not_not] using hnone
  have hsize := size_le_of_forall_mem (n := 0) (name_injective base role) fun k _ ↦ htaken _
  rw [Image.length_names] at hsize
  omega

end GeneratedNames

end HookPatch
