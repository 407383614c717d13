import HookPatch.Proofs.Engine.Recording
import HookPatch.Proofs.Session.Ids
import HookPatch.Proofs.Text.Numeral

namespace HookPatch

namespace GeneratedNames

open ExtensionIds Text

structure Request where
  image : Image
  base : String
  role : String

namespace Request

def nameAt (r : Request) (n : UInt32) : String := name r.base r.role n

def namesInUse (r : Request) : Nat := r.image.names.toFinset.card

/-- The search for a free name, one round after another, from the number of the name before. A round
goes on to the next number, which the last number does not have. -/
inductive Search (r : Request) : UInt32 → Nat → UInt32 → Prop
  | free {n : UInt32} :
      n.toNat + 1 < UInt32.size → r.nameAt (n + 1) ∉ r.image.names → Search r n 1 (n + 1)
  | next {n found : UInt32} {rounds : Nat} :
      n.toNat + 1 < UInt32.size → r.nameAt (n + 1) ∈ r.image.names → Search r (n + 1) rounds found →
      Search r n (rounds + 1) found

def Exhausts (r : Request) (n : UInt32) : Prop := ∀ m, n < m → r.nameAt m ∈ r.image.names

end Request

/-- The digits at the end are those of the number, for a mark that is no digit stands before them. -/
theorem number_eq_of_name_eq {base role base' role' : String} {m n : UInt32}
    (h : name base role m = name base' role' n) : m = n := by
  have hdigits (base role : String) (n : UInt32) :
      (name base role n).toList.reverse.takeWhile Char.isDigit =
        (Nat.toDigits 10 n.toNat).reverse := by
    have hall : ∀ c ∈ (Nat.toDigits 10 n.toNat).reverse, c.isDigit := by
      intro c hc
      exact (digits_toDigits n.toNat).isDigit c (List.mem_reverse.mp hc)
    have hmark : "_".toList.reverse = ['_'] := rfl
    have hstop : Char.isDigit '_' = false := rfl
    simp only [name, String.toList_append, Nat.toString_eq_repr, Nat.toList_repr,
      List.reverse_append, hmark, List.takeWhile_append_of_pos hall, List.singleton_append,
      List.takeWhile_cons, hstop, Bool.false_eq_true, if_false, List.append_nil]
  have hreverse := hdigits base role m
  rw [h, hdigits base' role' n, List.reverse_inj] at hreverse
  have hvalue := congrArg (fun s ↦ Nat.ofDigitChars 10 s 0) hreverse
  simp only [Nat.ofDigitChars_ten_toDigits] at hvalue
  exact UInt32.toNat_inj.mp hvalue.symm

namespace Request

variable {r : Request} {n found : UInt32} {rounds : Nat}

theorem nameAt_injective (r : Request) : Function.Injective r.nameAt :=
  fun _ _ h ↦ number_eq_of_name_eq h

namespace Search

/-- A search makes as many rounds as it moves on by numbers, and all but the last one meet a name
that is taken. -/
theorem spec (h : r.Search n rounds found) :
    0 < rounds ∧ found.toNat = n.toNat + rounds ∧ r.nameAt found ∉ r.image.names ∧
      ∀ m, n < m → m < found → r.nameAt m ∈ r.image.names := by
  induction h with
  | @free n hlast hfree =>
    have hnext := toNat_add_one hlast
    refine ⟨Nat.one_pos, hnext, hfree, fun m hm hlt ↦ ?_⟩
    rw [UInt32.lt_iff_toNat_lt] at hm hlt
    omega
  | @next n found rounds hlast htaken hrest ih =>
    obtain ⟨hpos, hfound, hfree, hbetween⟩ := ih
    have hnext := toNat_add_one hlast
    refine ⟨Nat.succ_pos _, by omega, hfree, fun m hm hlt ↦ ?_⟩
    by_cases heq : m = n + 1
    · exact heq ▸ htaken
    · have hne : m.toNat ≠ (n + 1).toNat := mt UInt32.toNat_inj.mp heq
      rw [UInt32.lt_iff_toNat_lt] at hm
      exact hbetween m (UInt32.lt_iff_toNat_lt.mpr (by omega)) hlt

/-- Each round before the last one meets another name of the image. -/
theorem rounds_le (h : r.Search n rounds found) : rounds ≤ r.namesInUse + 1 := by
  obtain ⟨hpos, hfound, -, hbetween⟩ := h.spec
  have hsize := found.toNat_lt_size
  let met := (Finset.range (rounds - 1)).image fun k ↦ r.nameAt (UInt32.ofNat (n.toNat + 1 + k))
  have hcard : met.card = rounds - 1 := by
    rw [Finset.card_image_of_injOn, Finset.card_range]
    intro i hi j hj hij
    rw [Finset.mem_coe, Finset.mem_range] at hi hj
    have hnumber := congrArg UInt32.toNat (r.nameAt_injective hij)
    rw [UInt32.toNat_ofNat_of_lt' (by omega), UInt32.toNat_ofNat_of_lt' (by omega)] at hnumber
    omega
  have hsub : met ⊆ r.image.names.toFinset := by
    intro name hname
    obtain ⟨k, hk, rfl⟩ := Finset.mem_image.mp hname
    rw [Finset.mem_range] at hk
    have hvalue : (UInt32.ofNat (n.toNat + 1 + k)).toNat = n.toNat + 1 + k :=
      UInt32.toNat_ofNat_of_lt' (by omega)
    refine List.mem_toFinset.mpr (hbetween _ ?_ ?_) <;> rw [UInt32.lt_iff_toNat_lt] <;> omega
  have hle := Finset.card_le_card hsub
  rw [namesInUse]
  omega

theorem firstFree_eq (h : r.Search n rounds found) {fuel : Nat} (hfuel : rounds ≤ fuel + 1) :
    firstFree r.image r.base r.role fuel (n + 1) = found := by
  induction h generalizing fuel with
  | @free n hlast hfree =>
    cases fuel with
    | zero => rfl
    | succ fuel =>
      have hname : ¬ r.image.hasName (name r.base r.role (n + 1)) := mt Image.hasName_iff.mp hfree
      rw [firstFree, if_neg hname]
  | @next n found rounds hlast htaken hrest ih =>
    have hpos := hrest.spec.1
    cases fuel with
    | zero => omega
    | succ fuel =>
      have hname : r.image.hasName (name r.base r.role (n + 1)) := Image.hasName_iff.mpr htaken
      rw [firstFree, if_pos hname, ih (by omega)]

theorem next_eq {g : GeneratedNames} (h : r.Search g.counter rounds found) :
    g.next r.image r.base r.role = (r.nameAt found, { counter := found }) := by
  have hinUse : r.namesInUse ≤ namesTaken r.image := by
    rw [← Image.length_names]
    exact r.image.names.toFinset_card_le
  have hrounds := h.rounds_le
  have hfirst : firstFree r.image r.base r.role (namesTaken r.image) (g.counter + 1) = found :=
    h.firstFree_eq (by omega)
  simp only [GeneratedNames.next, hfirst, nameAt]

end Search

/-- A search comes to a free name, unless it has no number left to go on to. -/
theorem search_or_exhausts (r : Request) (n : UInt32) :
    (∃ rounds found, r.Search n rounds found) ∨ r.Exhausts n := by
  induction hleft : UInt32.size - 1 - n.toNat generalizing n with
  | zero =>
    refine .inr fun m hm ↦ ?_
    have hsize := m.toNat_lt_size
    rw [UInt32.lt_iff_toNat_lt] at hm
    omega
  | succ left ih =>
    have hlast : n.toNat + 1 < UInt32.size := by omega
    have hnext := toNat_add_one hlast
    by_cases htaken : r.nameAt (n + 1) ∈ r.image.names
    · rcases ih (n + 1) (by omega) with ⟨rounds, found, hsearch⟩ | hexhausts
      · exact .inl ⟨_, _, .next hlast htaken hsearch⟩
      · refine .inr fun m hm ↦ ?_
        by_cases heq : m = n + 1
        · exact heq ▸ htaken
        · have hne : m.toNat ≠ (n + 1).toNat := mt UInt32.toNat_inj.mp heq
          rw [UInt32.lt_iff_toNat_lt] at hm
          exact hexhausts m (UInt32.lt_iff_toNat_lt.mpr (by omega))
    · exact .inl ⟨_, _, .free hlast htaken⟩

end Request

structure Answer where
  name : String
  rounds : Nat

/-- Calls of a generator, one after another, in none of which its counter overflows. -/
inductive Draws : GeneratedNames → List Request → List Answer → GeneratedNames → Prop
  | nil (g : GeneratedNames) : Draws g [] [] g
  | cons {g g' : GeneratedNames} {r : Request} {requests : List Request} {answers : List Answer}
      {found : UInt32} {rounds : Nat} :
      r.Search g.counter rounds found → Draws { counter := found } requests answers g' →
      Draws g (r :: requests) ({ name := r.nameAt found, rounds } :: answers) g'

def drawAll : List Request → GeneratedNames → List String × GeneratedNames
  | [], g => ([], g)
  | r :: requests, g =>
    let (name, g) := g.next r.image r.base r.role
    let (names, g) := drawAll requests g
    (name :: names, g)

structure Request.Answered (r : Request) (a : Answer) : Prop where
  rounds_le : a.rounds ≤ r.namesInUse + 1
  isGenerated : isGenerated a.name
  isFree : a.name ∉ r.image.names

namespace Draws

variable {g g' : GeneratedNames} {requests : List Request} {answers : List Answer}

theorem drawAll_eq (h : Draws g requests answers g') :
    drawAll requests g = (answers.map Answer.name, g') := by
  induction h with
  | nil g => rfl
  | cons hsearch _ ih => simp only [drawAll, hsearch.next_eq, ih, List.map_cons]

theorem answered (h : Draws g requests answers g') :
    List.Forall₂ Request.Answered requests answers := by
  induction h with
  | nil g => exact .nil
  | @cons g g' r requests answers found rounds hsearch _ ih =>
    have hfree : r.nameAt found ∉ r.image.names := hsearch.spec.2.2.1
    exact .cons ⟨hsearch.rounds_le, isGenerated_name _ _ _, hfree⟩ ih

theorem exists_number (h : Draws g requests answers g') :
    ∀ a ∈ answers, ∃ base role n, a.name = name base role n ∧ g.counter < n := by
  induction h with
  | nil g => exact nofun
  | @cons g g' r requests answers found rounds hsearch _ ih =>
    obtain ⟨hpos, hfound, -, -⟩ := hsearch.spec
    have hlt : g.counter < found := UInt32.lt_iff_toNat_lt.mpr (by omega)
    refine List.forall_mem_cons.mpr ⟨⟨r.base, r.role, found, rfl, hlt⟩, fun a ha ↦ ?_⟩
    obtain ⟨base, role, n, hname, hn⟩ := ih a ha
    exact ⟨base, role, n, hname, UInt32.lt_trans hlt hn⟩

theorem nodup (h : Draws g requests answers g') : (answers.map Answer.name).Nodup := by
  induction h with
  | nil g => exact .nil
  | @cons g g' r requests answers found rounds hsearch hrest ih =>
    refine List.nodup_cons.mpr ⟨fun hmem ↦ ?_, ih⟩
    obtain ⟨a, ha, hsame⟩ := List.mem_map.mp hmem
    obtain ⟨base, role, n, hname, hn⟩ := hrest.exists_number a ha
    have hnumber : n = found := number_eq_of_name_eq (hname.symm.trans hsame)
    exact UInt32.lt_irrefl _ (hnumber ▸ hn)

end Draws

/-- Calls come back one after another until there is one that has no number left. -/
theorem draws_or_exhausts (g : GeneratedNames) (requests : List Request) :
    (∃ answers g', Draws g requests answers g') ∨
      ∃ before r after answers g', requests = before ++ r :: after ∧ Draws g before answers g' ∧
        r.Exhausts g'.counter := by
  induction requests generalizing g with
  | nil => exact .inl ⟨[], g, .nil g⟩
  | cons r requests ih =>
    rcases r.search_or_exhausts g.counter with ⟨rounds, found, hsearch⟩ | hexhausts
    · rcases ih { counter := found } with
        ⟨answers, g', hdraws⟩ | ⟨before, r', after, answers, g', rfl, hdraws, hexhausts⟩
      · exact .inl ⟨_, g', .cons hsearch hdraws⟩
      · exact .inr ⟨r :: before, r', after, _, g', rfl, .cons hsearch hdraws, hexhausts⟩
    · exact .inr ⟨[], r, requests, [], g, rfl, .nil g, hexhausts⟩

/-- A generator that is asked for one name after another, for any images, bases and roles, comes back
every time, unless a call finds all names taken that the numbers behind the counter give. Each call
makes at most one more round than its image has names and gives a generated name that the image has
not taken, and no two calls give the same name. -/
theorem draws_fresh_and_distinct (g : GeneratedNames) (requests : List Request) :
    ((∃ answers g', Draws g requests answers g') ∨
      ∃ before r after answers g', requests = before ++ r :: after ∧ Draws g before answers g' ∧
        r.Exhausts g'.counter) ∧
    ∀ answers g', Draws g requests answers g' →
      drawAll requests g = (answers.map Answer.name, g') ∧
      List.Forall₂ Request.Answered requests answers ∧ (answers.map Answer.name).Nodup :=
  ⟨draws_or_exhausts g requests, fun _ _ h ↦ ⟨h.drawAll_eq, h.answered, h.nodup⟩⟩

/-- The name in the way is gone at the third call, whose base ends like a generated name. -/
theorem draws_fresh_and_distinct_freed :
    let image : Image := { units := [{ name := "__hook_main_orig_2" }] }
    let requests : List Request :=
      [⟨image, "main", "orig"⟩, ⟨image, "main", "orig"⟩, ⟨{}, "main_orig_2", "orig"⟩]
    let answers : List Answer :=
      [⟨"__hook_main_orig_1", 1⟩, ⟨"__hook_main_orig_3", 2⟩, ⟨"__hook_main_orig_2_orig_4", 1⟩]
    Draws {} requests answers { counter := 4 } ∧
      drawAll requests {} = (answers.map Answer.name, { counter := 4 }) ∧
      List.Forall₂ Request.Answered requests answers ∧ (answers.map Answer.name).Nodup := by
  intro image requests answers
  have h : Draws {} requests answers { counter := 4 } :=
    .cons (.free (by decide) (by decide +kernel)) <|
    .cons (.next (by decide) (by decide +kernel) (.free (by decide) (by decide +kernel))) <|
    .cons (.free (by decide) (by decide +kernel)) <| .nil _
  exact ⟨h, (draws_fresh_and_distinct {} requests).2 answers _ h⟩

end GeneratedNames

end HookPatch
