import HookPatch.Proofs.Image.Names
import HookPatch.Session.ExtensionIds
import Mathlib.Data.Finset.Card

namespace HookPatch

def Image.nativeIds (image : Image) : List UInt32 := image.nativeFunctions.map (·.id)

namespace ExtensionIds

/-- The search for a free id, from each taken id to the next. The last id has no next. -/
inductive Search (taken : List UInt32) : UInt32 → UInt32 → Prop
  | free {id : UInt32} : id ∉ taken → Search taken id id
  | next {id found : UInt32} :
      id ∈ taken → id.toNat + 1 < UInt32.size → Search taken (id + 1) found → Search taken id found

theorem toNat_add_one {id : UInt32} (h : id.toNat + 1 < UInt32.size) :
    (id + 1).toNat = id.toNat + 1 := by
  rw [UInt32.toNat_add]
  exact Nat.mod_eq_of_lt h

namespace Search

variable {taken : List UInt32} {id found : UInt32}

theorem spec (h : Search taken id found) :
    id ≤ found ∧ found ∉ taken ∧ ∀ m, id ≤ m → m < found → m ∈ taken := by
  induction h with
  | free hfree =>
    refine ⟨UInt32.le_refl _, hfree, fun m hle hlt ↦ ?_⟩
    rw [UInt32.le_iff_toNat_le] at hle
    rw [UInt32.lt_iff_toNat_lt] at hlt
    omega
  | @next id found hid hlast _ ih =>
    obtain ⟨hle, hfree, hbetween⟩ := ih
    have hnext := toNat_add_one hlast
    rw [UInt32.le_iff_toNat_le] at hle
    refine ⟨UInt32.le_iff_toNat_le.mpr (by omega), hfree, fun m hm hlt ↦ ?_⟩
    rw [UInt32.le_iff_toNat_le] at hm
    by_cases heq : m = id
    · exact heq ▸ hid
    · have hne : m.toNat ≠ id.toNat := fun h ↦ heq (UInt32.toNat_inj.mp h)
      exact hbetween m (UInt32.le_iff_toNat_le.mpr (by omega)) hlt

theorem exists_le {m : UInt32} (hle : id ≤ m) (hm : m ∉ taken) :
    ∃ found, Search taken id found ∧ found ≤ m := by
  rw [UInt32.le_iff_toNat_le] at hle
  induction hdistance : m.toNat - id.toNat generalizing id with
  | zero =>
    obtain rfl : id = m := UInt32.toNat_inj.mp (by omega)
    exact ⟨id, .free hm, UInt32.le_refl id⟩
  | succ distance ih =>
    by_cases hid : id ∈ taken
    · have hlast := m.toNat_lt_size
      have hnotLast : id.toNat + 1 < UInt32.size := by omega
      have hnext := toNat_add_one hnotLast
      have hle' : (id + 1).toNat ≤ m.toNat := by omega
      obtain ⟨found, hfound, hfoundLe⟩ := ih hle' (by omega)
      exact ⟨found, .next hid hnotLast hfound, hfoundLe⟩
    · exact ⟨id, .free hid, UInt32.le_iff_toNat_le.mpr hle⟩

/-- As many ids are passed over as there are between the first and the one that is found. -/
theorem firstFree_eq (h : Search taken id found) {fuel : Nat}
    (hfuel : found.toNat ≤ id.toNat + fuel) : firstFree taken fuel id = found := by
  induction h generalizing fuel with
  | free hfree =>
    cases fuel with
    | zero => rfl
    | succ fuel => rw [firstFree, if_neg hfree]
  | @next id found hid hlast hrest ih =>
    have hnext := toNat_add_one hlast
    have hle := UInt32.le_iff_toNat_le.mp hrest.spec.1
    cases fuel with
    | zero => omega
    | succ fuel => rw [firstFree, if_pos hid, ih (by omega)]

end Search

/-- Whether each id below `id` is one that was given out, or one that was seen in an image. -/
def Passed (earlier seen : List UInt32) (id : UInt32) : Prop := ∀ m, m < id → m ∈ earlier ∨ m ∈ seen

namespace Passed

variable {earlier seen : List UInt32} {id : UInt32}

theorem toNat_le (h : Passed earlier seen id) : id.toNat ≤ earlier.length + seen.toFinset.card := by
  let below := (Finset.range id.toNat).image UInt32.ofNat
  have hsize := id.toNat_lt_size
  have hcard : below.card = id.toNat := by
    rw [Finset.card_image_of_injOn, Finset.card_range]
    intro i hi j hj hij
    rw [Finset.mem_coe, Finset.mem_range] at hi hj
    have hij := congrArg UInt32.toNat hij
    rwa [UInt32.toNat_ofNat_of_lt' (by omega), UInt32.toNat_ofNat_of_lt' (by omega)] at hij
  have hsub : below ⊆ earlier.toFinset ∪ seen.toFinset := by
    intro m hm
    obtain ⟨i, hi, rfl⟩ := Finset.mem_image.mp hm
    rw [Finset.mem_range] at hi
    have hlt : UInt32.ofNat i < id := by
      rw [UInt32.lt_iff_toNat_lt, UInt32.toNat_ofNat_of_lt' (by omega)]
      exact hi
    rw [Finset.mem_union, List.mem_toFinset, List.mem_toFinset]
    exact h _ hlt
  calc id.toNat = below.card := hcard.symm
    _ ≤ (earlier.toFinset ∪ seen.toFinset).card := Finset.card_le_card hsub
    _ ≤ earlier.toFinset.card + seen.toFinset.card := Finset.card_union_le _ _
    _ ≤ earlier.length + seen.toFinset.card :=
      Nat.add_le_add_right (List.toFinset_card_le earlier) _

theorem zero : Passed earlier seen 0 := fun _ hm ↦ absurd hm UInt32.not_lt_zero

theorem extend (h : Passed earlier seen id) {taken : List UInt32} {bound : UInt32}
    (htaken : ∀ m, id ≤ m → m < bound → m ∈ taken) : Passed earlier (seen ++ taken) bound := by
  intro m hm
  rw [List.mem_append]
  by_cases hle : id ≤ m
  · exact .inr (.inr (htaken m hle hm))
  · rcases h m (UInt32.not_le.mp hle) with hids | hseen
    · exact .inl hids
    · exact .inr (.inl hseen)

theorem give (h : Passed earlier seen id) (hlast : id.toNat + 1 < UInt32.size) :
    Passed (earlier ++ [id]) seen (id + 1) := by
  intro m hm
  rw [UInt32.lt_iff_toNat_lt, toNat_add_one hlast] at hm
  rw [List.mem_append, List.mem_singleton]
  by_cases heq : m = id
  · exact .inl (.inr heq)
  · have hne : m.toNat ≠ id.toNat := mt UInt32.toNat_inj.mp heq
    rcases h m (UInt32.lt_iff_toNat_lt.mpr (by omega)) with hids | hseen
    · exact .inl (.inl hids)
    · exact .inr hseen

/-- If all ids from `id` up to a bound were taken, there would be too few to take them. -/
theorem exists_search (h : Passed earlier seen id) {taken : List UInt32}
    (hroom : earlier.length + (seen ++ taken).toFinset.card + 1 < UInt32.size) :
    ∃ found, Search taken id found ∧
      found.toNat ≤ earlier.length + (seen ++ taken).toFinset.card := by
  let bound := earlier.length + (seen ++ taken).toFinset.card
  have hbound : (UInt32.ofNat (bound + 1)).toNat = bound + 1 :=
    UInt32.toNat_ofNat_of_lt' (by omega)
  obtain ⟨m, hle, hlt, hm⟩ : ∃ m, id ≤ m ∧ m < UInt32.ofNat (bound + 1) ∧ m ∉ taken := by
    by_contra hnone
    simp only [not_exists, not_and, not_not] at hnone
    have hcount := (h.extend hnone).toNat_le
    omega
  obtain ⟨found, hsearch, hfound⟩ := Search.exists_le hle hm
  rw [UInt32.le_iff_toNat_le] at hfound
  rw [UInt32.lt_iff_toNat_lt] at hlt
  exact ⟨found, hsearch, by omega⟩

end Passed

theorem Search.next_eq {g : ExtensionIds} {image : Image} {id : UInt32}
    (h : Search image.nativeIds g.cursor id) : g.next image = (id, { cursor := id + 1 }) := by
  let below := (List.range g.cursor.toNat).map UInt32.ofNat
  have hbelow : Passed below [] g.cursor := fun m hm ↦
    .inl (List.mem_map.mpr ⟨m.toNat, List.mem_range.mpr hm, UInt32.ofNat_toNat⟩)
  have hcount := (hbelow.extend h.spec.2.2).toNat_le
  have hcard := image.nativeIds.toFinset_card_le
  have hlength : below.length = g.cursor.toNat := by rw [List.length_map, List.length_range]
  rw [List.nil_append] at hcount
  have hfirst : firstFree image.nativeIds image.nativeIds.length g.cursor = id :=
    h.firstFree_eq (by omega)
  rw [ExtensionIds.next, ← Image.nativeIds, hfirst]

theorem firstFree_taken {taken : List UInt32} {fuel : Nat} {n : UInt32}
    (h : firstFree taken fuel n ∈ taken) (k : Nat) (hk : k ≤ fuel) :
    n + UInt32.ofNat k ∈ taken := by
  induction fuel generalizing n k with
  | zero =>
    obtain rfl : k = 0 := by omega
    simpa [firstFree] using h
  | succ fuel ih =>
    rw [firstFree] at h
    split at h
    · rename_i htaken
      cases k with
      | zero => simpa using htaken
      | succ k =>
        have hnext := ih h k (by omega)
        rwa [show n + 1 + UInt32.ofNat k = n + UInt32.ofNat (k + 1) by
          rw [UInt32.ofNat_add, UInt32.add_assoc, UInt32.add_comm 1]; rfl] at hnext
    · rename_i hfree
      exact absurd h hfree

theorem next_not_mem (g : ExtensionIds) {image : Image}
    (h : image.nativeIds.length < UInt32.size) : (g.next image).1 ∉ image.nativeIds := by
  intro hmem
  have hsize := size_le_of_forall_mem (f := id) Function.injective_id (firstFree_taken hmem)
  omega

/-- Calls of a generator for one image after another, in none of which its cursor overflows. -/
inductive Draws : ExtensionIds → List Image → List UInt32 → ExtensionIds → Prop
  | nil (g : ExtensionIds) : Draws g [] [] g
  | cons {g g' : ExtensionIds} {image : Image} {images : List Image} {id : UInt32}
      {ids : List UInt32} :
      Search image.nativeIds g.cursor id → id.toNat + 1 < UInt32.size →
      Draws { cursor := id + 1 } images ids g' → Draws g (image :: images) (id :: ids) g'

def drawAll : List Image → ExtensionIds → List UInt32 × ExtensionIds
  | [], g => ([], g)
  | image :: images, g =>
    let (id, g) := g.next image
    let (ids, g) := drawAll images g
    (id :: ids, g)

def idsOf (images : List Image) : Finset UInt32 := (images.flatMap Image.nativeIds).toFinset

namespace Draws

variable {g g' : ExtensionIds} {images : List Image} {ids : List UInt32}

theorem drawAll_eq (h : Draws g images ids g') : drawAll images g = (ids, g') := by
  induction h with
  | nil g => rfl
  | cons hsearch _ _ ih => rw [drawAll, hsearch.next_eq]; dsimp only; rw [ih]

theorem length_eq (h : Draws g images ids g') : ids.length = images.length := by
  induction h with
  | nil g => rfl
  | cons _ _ _ ih => rw [List.length_cons, List.length_cons, ih]

theorem exists_of_append {before after : List Image} (h : Draws g (before ++ after) ids g') :
    ∃ earlier later mid, ids = earlier ++ later ∧ Draws g before earlier mid ∧
      Draws mid after later g' := by
  induction before generalizing g ids with
  | nil => exact ⟨[], ids, g, rfl, .nil g, h⟩
  | cons image before ih =>
    obtain - | ⟨hsearch, hlast, hrest⟩ := h
    obtain ⟨earlier, later, mid, rfl, hbefore, hafter⟩ := ih hrest
    exact ⟨_, later, mid, rfl, .cons hsearch hlast hbefore, hafter⟩

theorem spec (h : Draws g images ids g') :
    g.cursor ≤ g'.cursor ∧ ids.Pairwise (· < ·) ∧ ∀ id ∈ ids, g.cursor ≤ id ∧ id < g'.cursor := by
  induction h with
  | nil g => exact ⟨UInt32.le_refl _, .nil, nofun⟩
  | @cons g g' image images id ids hsearch hlast _ ih =>
    obtain ⟨hle, hpairwise, hbounds⟩ := ih
    have hfirst := hsearch.spec.1
    have hnext := toNat_add_one hlast
    simp only [UInt32.le_iff_toNat_le, UInt32.lt_iff_toNat_lt] at *
    refine ⟨by omega, List.pairwise_cons.mpr ⟨fun m hm ↦ ?_, hpairwise⟩, ?_⟩
    · have hm := hbounds m hm
      omega
    · refine List.forall_mem_cons.mpr ⟨⟨hfirst, by omega⟩, fun m hm ↦ ?_⟩
      have hm := hbounds m hm
      omega

/-- The cursor moves over what is given out and what the images have, and over nothing else. -/
theorem passed (h : Draws g images ids g') {earlier seen : List UInt32}
    (hpassed : Passed earlier seen g.cursor) :
    Passed (earlier ++ ids) (seen ++ images.flatMap Image.nativeIds) g'.cursor := by
  induction h generalizing earlier seen with
  | nil g => rwa [List.append_nil, List.flatMap_nil, List.append_nil]
  | cons hsearch hlast _ ih =>
    have hrest := ih ((hpassed.extend hsearch.spec.2.2).give hlast)
    rwa [List.append_assoc, List.append_assoc, List.singleton_append, ← List.flatMap_cons] at hrest

theorem exists_ge (h : Draws g images ids g') {m : UInt32} (hle : g.cursor ≤ m)
    (hlt : m < g'.cursor) : ∃ r ∈ ids, m ≤ r := by
  induction h with
  | nil g =>
    rw [UInt32.le_iff_toNat_le] at hle
    rw [UInt32.lt_iff_toNat_lt] at hlt
    omega
  | @cons g g' image images id ids _ hlast _ ih =>
    have hnext := toNat_add_one hlast
    by_cases hid : m ≤ id
    · exact ⟨id, List.mem_cons_self, hid⟩
    · rw [UInt32.le_iff_toNat_le] at hid
      have hbehind : id + 1 ≤ m := UInt32.le_iff_toNat_le.mpr (by omega)
      obtain ⟨r, hr, hmr⟩ := ih hbehind hlt
      exact ⟨r, List.mem_cons_of_mem _ hr, hmr⟩

/-- Each id of a new generator is the least that no id before it and no function of its image has. -/
theorem at_image {before after : List Image} {image : Image}
    (h : Draws {} (before ++ image :: after) ids g') :
    ∃ earlier id later, ids = earlier ++ id :: later ∧ earlier.length = before.length ∧
      id ∉ image.nativeIds ∧ (∀ m, m < id → (∀ r ∈ earlier, r < m) → m ∈ image.nativeIds) ∧
      id.toNat ≤ before.length + (idsOf (before ++ [image])).card := by
  obtain ⟨earlier, rest, mid, rfl, hbefore, hrest⟩ := h.exists_of_append
  obtain - | ⟨hsearch, hlast, hlater⟩ := hrest
  rename_i id later
  obtain ⟨-, hfree, hbetween⟩ := hsearch.spec
  refine ⟨earlier, id, later, rfl, hbefore.length_eq, hfree, fun m hm habove ↦ ?_, ?_⟩
  · by_cases hcursor : mid.cursor ≤ m
    · exact hbetween m hcursor hm
    · have hstart : ({} : ExtensionIds).cursor ≤ m := UInt32.le_iff_toNat_le.mpr (Nat.zero_le _)
      obtain ⟨r, hr, hmr⟩ := hbefore.exists_ge hstart (UInt32.not_le.mp hcursor)
      exact absurd hmr (UInt32.not_le.mpr (habove r hr))
  · have hpassed : Passed [] [] ({} : ExtensionIds).cursor := .zero
    have hcount := ((hbefore.passed hpassed).extend hbetween).toNat_le
    rwa [List.nil_append, List.nil_append, hbefore.length_eq,
      ← List.flatMap_singleton Image.nativeIds image, ← List.flatMap_append] at hcount

end Draws

/-- As long as there are more ids than calls and ids that the images have, there is a free id in
reach that is not the last. -/
theorem exists_draws {g : ExtensionIds} {earlier seen : List UInt32} (images : List Image)
    (hpassed : Passed earlier seen g.cursor)
    (hroom : earlier.length + images.length +
      (seen ++ images.flatMap Image.nativeIds).toFinset.card < UInt32.size) :
    ∃ ids g', Draws g images ids g' := by
  induction images generalizing g earlier seen with
  | nil => exact ⟨[], g, .nil g⟩
  | cons image images ih =>
    rw [List.length_cons, List.flatMap_cons, ← List.append_assoc] at hroom
    have hsub : (seen ++ image.nativeIds).toFinset ⊆
        (seen ++ image.nativeIds ++ images.flatMap Image.nativeIds).toFinset := by
      intro m hm
      rw [List.mem_toFinset] at hm ⊢
      exact List.mem_append_left _ hm
    have hcard := Finset.card_le_card hsub
    obtain ⟨id, hsearch, hid⟩ : ∃ id, Search image.nativeIds g.cursor id ∧
        id.toNat ≤ earlier.length + (seen ++ image.nativeIds).toFinset.card :=
      hpassed.exists_search (by omega)
    have hlast : id.toNat + 1 < UInt32.size := by omega
    have hpassed' := (hpassed.extend hsearch.spec.2.2).give hlast
    have hlength : (earlier ++ [id]).length = earlier.length + 1 := by
      rw [List.length_append, List.length_singleton]
    obtain ⟨ids, g', hdraws⟩ := ih (g := { cursor := id + 1 }) hpassed' (by omega)
    exact ⟨id :: ids, g', .cons hsearch hlast hdraws⟩

end ExtensionIds

end HookPatch
