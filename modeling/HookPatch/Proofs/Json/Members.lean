import HookPatch.Json.Value
import Mathlib.Data.List.Nodup

namespace HookPatch.Json

variable {members members' : List (Option String × Json)} {names : List String} {name : String}
  {j : Json}

theorem member?_perm (h : members.Perm members') (name : String) :
    member? members name = member? members' name := by
  have hfilter := h.filter (·.1 = some name)
  rw [member?, member?]
  generalize members.filter (·.1 = some name) = found at hfilter
  generalize members'.filter (·.1 = some name) = found' at hfilter
  have hlength := hfilter.length_eq
  match found, found', hlength with
  | [], [], _ => rfl
  | [m], [m'], _ =>
    obtain rfl : m' = m := List.mem_singleton.mp (hfilter.mem_iff.mpr List.mem_cons_self)
    rfl
  | _ :: _ :: _, _ :: _ :: _, _ => rfl

theorem member?_cons_of_ne {key : Option String} (h : key ≠ some name) :
    member? ((key, j) :: members) name = member? members name := by
  rw [member?, member?, List.filter_cons_of_neg (by simpa using h)]

theorem filter_name_eq_nil_iff :
    members.filter (·.1 = some name) = [] ↔ some name ∉ members.map Prod.fst := by
  rw [List.filter_eq_nil_iff, List.mem_map, not_exists]
  exact forall_congr' fun m ↦ by rw [not_and, decide_eq_true_eq]

theorem member?_of_not_mem (h : some name ∉ members.map Prod.fst) :
    member? members name = some none := by
  rw [member?, filter_name_eq_nil_iff.mpr h]

theorem member?_cons_self_of_not_mem (h : some name ∉ members.map Prod.fst) :
    member? ((some name, j) :: members) name = some (some j) := by
  rw [member?, List.filter_cons_of_pos (by simp), filter_name_eq_nil_iff.mpr h]

theorem member?_cons_self_of_mem (h : some name ∈ members.map Prod.fst) :
    member? ((some name, j) :: members) name = none := by
  rw [member?, List.filter_cons_of_pos (by simp)]
  cases hfound : members.filter (·.1 = some name) with
  | nil => exact absurd h (filter_name_eq_nil_iff.mp hfound)
  | cons => rfl

theorem mem_of_member? (h : member? members name = some (some j)) : (some name, j) ∈ members := by
  rw [member?] at h
  split at h
  · cases h
  · rename_i key value hfound
    obtain rfl := Option.some.inj (Option.some.inj h)
    have hmem : (key, value) ∈ members.filter (·.1 = some name) := by
      rw [hfound]
      exact List.mem_cons_self
    obtain ⟨hmem, hkey⟩ := List.mem_filter.mp hmem
    obtain rfl := of_decide_eq_true hkey
    exact hmem
  · cases h

/-- The value of a field, if it has just one. -/
def valueOf (members : List (Option String × Json)) (name : String) : Option Json :=
  (member? members name).getD none

/-- Whether the fields of a record can be told: all keys are text, and no name stands twice. -/
def Readable (names : List String) (members : List (Option String × Json)) : Prop :=
  (∀ m ∈ members, m.1.isSome) ∧ ∀ name ∈ names, (member? members name).isSome

instance (names : List String) (members : List (Option String × Json)) :
    Decidable (Readable names members) := instDecidableAnd

theorem fields?_object (names : List String) (members : List (Option String × Json)) :
    (object members).fields? names =
      if Readable names members then some (names.map (valueOf members)) else none := by
  have hnames : names.mapM (member? members) =
      if ∀ name ∈ names, (member? members name).isSome then some (names.map (valueOf members))
      else none := by
    induction names with
    | nil => rfl
    | cons name names ih =>
      rw [List.mapM_cons, ih, List.map_cons, valueOf]
      simp only [List.forall_mem_cons]
      cases member? members name with
      | none => simp
      | some value =>
        by_cases hrest : ∀ name ∈ names, (member? members name).isSome
        · rw [if_pos hrest, if_pos ⟨rfl, hrest⟩]
          rfl
        · rw [if_neg hrest, if_neg (not_and_of_not_right _ hrest)]
          rfl
  rw [fields?, hnames]
  simp only [Readable, ite_and, List.all_eq_true]

theorem member?_cons_self_eq_some {value : Option Json}
    (h : member? ((some name, j) :: members) name = some value) :
    value = some j ∧ some name ∉ members.map Prod.fst := by
  by_cases hmem : some name ∈ members.map Prod.fst
  · rw [member?_cons_self_of_mem hmem] at h
    cases h
  · rw [member?_cons_self_of_not_mem hmem] at h
    exact ⟨(Option.some.inj h).symm, hmem⟩

variable {fields : List (String × Json)}

theorem member?_record (h : (fields.map Prod.fst).Nodup) (name : String) :
    member? (fields.map fun (name, value) ↦ (some name, value)) name =
      some (fields.lookup name) := by
  induction fields with
  | nil => rfl
  | cons field fields ih =>
    obtain ⟨key, value⟩ := field
    obtain ⟨hnew, hnodup⟩ := List.nodup_cons.mp h
    rw [List.map_cons, List.lookup_cons]
    by_cases hname : key = name
    · subst hname
      rw [member?_cons_self_of_not_mem (by simpa using hnew), BEq.rfl]
    · rw [member?_cons_of_ne (mt Option.some.inj hname), beq_false_of_ne (Ne.symm hname)]
      exact ih hnodup

theorem fields?_record (h : (fields.map Prod.fst).Nodup) (names : List String) :
    (record fields).fields? names = some (names.map fun name ↦ fields.lookup name) := by
  have hmember := member?_record h
  have hreadable : Readable names (fields.map fun (name, value) ↦ (some name, value)) :=
    ⟨List.forall_mem_map.mpr fun _ _ ↦ rfl, fun name _ ↦ by rw [hmember]; rfl⟩
  rw [record, fields?_object, if_pos hreadable]
  refine congrArg some (List.map_congr_left fun name _ ↦ ?_)
  rw [valueOf, hmember, Option.getD_some]

end HookPatch.Json
