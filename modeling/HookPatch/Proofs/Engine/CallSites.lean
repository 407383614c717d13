import HookPatch.Proofs.Engine.Redirection
import HookPatch.Proofs.Image.WellFormed

namespace HookPatch

def CodeUnit.redirectedBy (g : Instruction → Instruction) (u : CodeUnit) : CodeUnit :=
  if u.isRedirected then u.withBody (u.body.map g) else u

namespace Image

def redirectedBy (g : Instruction → Instruction) (image : Image) : Image :=
  { image with units := image.units.map (·.redirectedBy g) }

def callSites (image : Image) : List Instruction :=
  (image.units.filter (·.isRedirected)).flatMap (·.body)

def differences (image image' : Image) : Nat :=
  ((image.units.zip image'.units).map fun (u, v) ↦
    (u.body.zip v.body).countP fun (i, j) ↦ i ≠ j).sum

end Image

theorem CodeUnit.isRedirected_iff {u : CodeUnit} :
    u.isRedirected ↔ u.parent = none ∧ ¬ isGenerated u.name := by
  simp [isRedirected, isChild]

section Map

variable (g : Instruction → Instruction)

theorem CodeUnit.redirectedBy_name (u : CodeUnit) : (u.redirectedBy g).name = u.name := by
  unfold redirectedBy; split <;> rfl

theorem CodeUnit.redirectedBy_isRedirected (u : CodeUnit) :
    (u.redirectedBy g).isRedirected = u.isRedirected := by
  unfold redirectedBy; split <;> rfl

theorem CodeUnit.redirectedBy_of_not_redirected {u : CodeUnit} (h : ¬ u.isRedirected) :
    u.redirectedBy g = u := by rw [redirectedBy, if_neg h]

theorem CodeUnit.getElem?_redirectedBy {u : CodeUnit} (h : u.isRedirected) (j : Nat) :
    (u.redirectedBy g).body[j]? = (u.body[j]?).map g := by
  rw [redirectedBy, if_pos h]
  exact List.getElem?_map

namespace Image

variable (image : Image)

theorem unit?_redirectedBy (name : String) :
    (image.redirectedBy g).unit? name = (image.unit? name).map (·.redirectedBy g) := by
  simp only [unit?, redirectedBy, List.find?_map, Function.comp_def, CodeUnit.redirectedBy_name]

theorem unit?_redirectedBy_of_isGenerated {name : String} (h : isGenerated name) :
    (image.redirectedBy g).unit? name = image.unit? name := by
  rw [unit?_redirectedBy]
  cases hu : image.unit? name with
  | none => rfl
  | some u =>
    obtain ⟨-, -, -, hname, -⟩ := exists_split hu
    have hnot : ¬ u.isRedirected := fun hred ↦ (CodeUnit.isRedirected_iff.mp hred).2 (hname ▸ h)
    rw [Option.map_some, u.redirectedBy_of_not_redirected g hnot]

theorem callSites_redirectedBy : (image.redirectedBy g).callSites = image.callSites.map g := by
  simp only [callSites, redirectedBy, List.filter_map, Function.comp_def,
    CodeUnit.redirectedBy_isRedirected, List.flatMap_map, List.map_flatMap]
  refine List.flatMap_congr fun u hu ↦ ?_
  rw [CodeUnit.redirectedBy, if_pos (List.mem_filter.mp hu).2]
  rfl

theorem countP_zip_map (body : List Instruction) :
    (body.zip (body.map g)).countP (fun (i, j) ↦ i ≠ j) = body.countP fun i ↦ i ≠ g i := by
  induction body with
  | nil => rfl
  | cons i body ih => simp only [List.map_cons, List.zip_cons_cons, List.countP_cons, ih]

theorem differences_redirectedBy :
    image.differences (image.redirectedBy g) = image.callSites.countP fun i ↦ i ≠ g i := by
  have hsame : ∀ body : List Instruction, (body.zip body).countP (fun (i, j) ↦ i ≠ j) = 0 := by
    intro body
    have h := countP_zip_map id body
    rw [List.map_id] at h
    rw [h]
    simp
  obtain ⟨units, functions, extensions⟩ := image
  simp only [differences, redirectedBy, callSites]
  induction units with
  | nil => rfl
  | cons u units ih =>
    rw [List.map_cons, List.zip_cons_cons, List.map_cons, List.sum_cons, ih]
    by_cases hu : u.isRedirected
    · rw [List.filter_cons_of_pos hu, List.flatMap_cons, List.countP_append,
        CodeUnit.redirectedBy, if_pos hu]
      exact congrArg (· + _) (countP_zip_map g u.body)
    · rw [List.filter_cons_of_neg hu, u.redirectedBy_of_not_redirected g hu]
      exact (congrArg (· + _) (hsame u.body)).trans (Nat.zero_add _)

theorem redirectedBy_eq_self (h : ∀ i ∈ image.callSites, g i = i) : image.redirectedBy g = image := by
  have hunits : image.units.map (·.redirectedBy g) = image.units := by
    refine (List.map_congr_left fun u hu ↦ ?_).trans (List.map_id image.units)
    by_cases hred : u.isRedirected
    · have hbody : u.body.map g = u.body := by
        refine (List.map_congr_left fun i hi ↦ ?_).trans (List.map_id u.body)
        exact h i (List.mem_flatMap.mpr ⟨u, List.mem_filter.mpr ⟨hu, hred⟩, hi⟩)
      rw [CodeUnit.redirectedBy, if_pos hred, hbody]
      rfl
    · exact u.redirectedBy_of_not_redirected g hred
  rw [redirectedBy, hunits]

end Image

end Map

open Redirects

variable {t : Redirects} {image : Image}

theorem dangling?_redirectedBy (t : Redirects) (g : Instruction → Instruction) (image : Image) :
    t.dangling? (image.redirectedBy g) = t.dangling? image := by
  simp only [dangling?, Image.unit?_redirectedBy, Option.isNone_map]

theorem dangling?_eq_none_iff :
    t.dangling? image = none ↔ ∀ e ∈ t.entries, e.2.replacement ∈ image.units.map (·.name) := by
  simp only [dangling?, List.find?_eq_none, ← Image.isSome_unit?, Bool.not_eq_true,
    Option.isNone_eq_false_iff]

theorem redirectUnit_eq (t : Redirects) (u : CodeUnit) : redirectUnit t u =
    (if u.isRedirected then (u.body.map (changes t.entries)).sum else 0,
      u.redirectedBy (pass t.entries)) := by
  by_cases hu : u.isRedirected
  · simp only [redirectUnit, CodeUnit.redirectedBy, hu, if_true, redirectBody_eq]
    rfl
  · simp only [redirectUnit, CodeUnit.redirectedBy, hu]
    rfl

theorem redirectImage_eq_ok (h : t.dangling? image = none) : redirectImage t image =
    .ok ((image.callSites.map (changes t.entries)).sum, image.redirectedBy (pass t.entries)) := by
  have hcount : (image.units.map (redirectUnit t)).foldr (fun result n ↦ result.1 + n) 0 =
      (image.callSites.map (changes t.entries)).sum := by
    rw [Image.callSites]
    induction image.units with
    | nil => rfl
    | cons u units ih =>
      rw [List.map_cons, List.foldr_cons, ih, redirectUnit_eq]
      by_cases hu : u.isRedirected
      · simp [hu]
      · simp [hu]
  simp only [redirectImage, h, hcount, List.map_map]
  simp only [Image.redirectedBy, Function.comp_def, redirectUnit_eq]

theorem redirectImage_eq_error {function : String} {r : Redirect}
    (h : t.dangling? image = some (function, r)) :
    redirectImage t image = .error (.danglingRedirect function r.replacement) := by
  simp only [redirectImage, h]

/-- A second redirection by the same table finds nothing to change when the first has left no call
site that an entry hits. -/
theorem redirectImage_again (h : t.dangling? image = none) :
    redirectImage t (image.redirectedBy (pass t.entries)) =
        .ok (0, image.redirectedBy (pass t.entries)) ↔
      ∀ i ∈ image.callSites, changes t.entries (pass t.entries i) = 0 := by
  let again := image.redirectedBy (pass t.entries)
  have hsites : again.callSites = image.callSites.map (pass t.entries) :=
    Image.callSites_redirectedBy _ image
  have hok : redirectImage t again =
      .ok ((again.callSites.map (changes t.entries)).sum, again.redirectedBy (pass t.entries)) :=
    redirectImage_eq_ok ((dangling?_redirectedBy t _ image).trans h)
  constructor
  · intro hagain i hi
    obtain ⟨hzero, -⟩ := Prod.mk.inj (Except.ok.inj (hok.symm.trans hagain))
    refine List.sum_eq_zero_iff_forall_eq_nat.mp hzero _ (List.mem_map_of_mem ?_)
    exact hsites ▸ List.mem_map_of_mem hi
  · intro hzero
    have hnone : ∀ i ∈ again.callSites, changes t.entries i = 0 := by
      rw [hsites]
      exact List.forall_mem_map.mpr hzero
    have hcount : (again.callSites.map (changes t.entries)).sum = 0 :=
      List.sum_eq_zero_iff_forall_eq_nat.mpr (List.forall_mem_map.mpr hnone)
    have hstays : again.redirectedBy (pass t.entries) = again :=
      Image.redirectedBy_eq_self _ again fun i hi ↦ pass_eq_self (hnone i hi)
    rw [hok, hcount, hstays]

end HookPatch
