import HookPatch.Proofs.FileTree.Parents
import Mathlib.Data.List.Nodup

namespace HookPatch

structure IsName (name : String) : Prop where
  ne_empty : name ≠ ""
  slash_not_mem : '/' ∉ name.toList
  ne_dot : name ≠ "."
  ne_dots : name ≠ ".."

instance (name : String) : Decidable (IsName name) :=
  decidable_of_iff (name ≠ "" ∧ '/' ∉ name.toList ∧ name ≠ "." ∧ name ≠ "..")
    ⟨fun ⟨h, h', h'', h'''⟩ ↦ ⟨h, h', h'', h'''⟩, fun ⟨h, h', h'', h'''⟩ ↦ ⟨h, h', h'', h'''⟩⟩

namespace Path

variable {d : Path} {name : String}

theorem stepOf_name (h : IsName name) : stepOf name = .into name := by
  rw [stepOf, if_neg h.ne_dot, if_neg h.ne_dots]

theorem not_isAbsolute_name (h : IsName name) : ¬ Path.isAbsolute ⟨name⟩ := by
  rw [isAbsolute, decide_eq_true_eq, List.head?_eq_some_iff]
  rintro ⟨rest, hrest⟩
  exact h.slash_not_mem (hrest ▸ List.mem_cons_self)

theorem splitOn_append_cons (c : Char) (xs ys : List Char) :
    (xs ++ c :: ys).splitOn c = xs.splitOn c ++ ys.splitOn c := by
  induction xs with
  | nil => simp [List.splitOn_cons_eq_if_modifyHead]
  | cons x xs ih =>
    rw [List.cons_append, List.splitOn_cons_eq_if_modifyHead, List.splitOn_cons_eq_if_modifyHead, ih]
    cases hxs : xs.splitOn c with
    | nil => exact absurd hxs (List.splitOn_ne_nil c xs)
    | cons part parts => split <;> rfl

theorem splitOn_of_not_mem {c : Char} {s : List Char} (h : c ∉ s) : s.splitOn c = [s] := by
  induction s with
  | nil => rfl
  | cons d s ih =>
    rw [List.mem_cons, not_or] at h
    rw [List.splitOn_cons_eq_if_modifyHead, ih h.2, if_neg (by simpa using Ne.symm h.1)]
    rfl

theorem rest_child (hd : d.text ≠ "") (h : IsName name) :
    (d.child name).isAbsolute = d.isAbsolute ∧ (d.child name).rest =
      if d.text.toList.getLast? = some '/' then d.rest ++ name.toList
      else d.rest ++ '/' :: name.toList := by
  obtain ⟨c, cs, htext⟩ : ∃ c cs, d.text.toList = c :: cs := by
    rw [← List.ne_nil_iff_exists_cons]
    simpa using hd
  have hchild : (d.child name).text.toList = d.text.toList ++
      if d.text.toList.getLast? = some '/' then name.toList else '/' :: name.toList := by
    rw [child, join, if_neg (not_isAbsolute_name h)]
    simp only [htext, List.getLast?_cons, Option.isNone_some, Bool.false_or, decide_eq_true_eq]
    split <;> simp [htext]
  have habsolute : (d.child name).isAbsolute = d.isAbsolute := by
    rw [isAbsolute, isAbsolute, hchild, htext]
    rfl
  refine ⟨habsolute, ?_⟩
  rw [rest, rest, habsolute, hchild]
  split <;> split <;> simp [htext]

theorem getLast?_segments (hd : d.text ≠ "") (hlast : d.text.toList.getLast? ≠ some '/') :
    d.segments.getLast? ≠ some "" := by
  intro hempty
  obtain ⟨init, hinit⟩ := List.getLast?_eq_some_iff.mp hempty
  have htext := text_eq d
  rw [hinit] at htext
  cases init with
  | nil =>
    -- only the root is written with no text in its segments
    rw [root] at htext
    split at htext
    · exact hlast (by rw [htext]; rfl)
    · exact hd htext
  | cons first init =>
    rw [String.intercalate_append_of_ne_nil (by simp) (by simp)] at htext
    apply hlast
    rw [htext]
    simp

theorem rest_of_slash (hlast : d.text.toList.getLast? = some '/') :
    d.rest = [] ∨ ∃ init, d.rest = init ++ ['/'] := by
  rcases List.eq_nil_or_concat d.rest with hrest | ⟨init, c, hrest⟩
  · exact .inl hrest
  · rw [toList_text, hrest, List.concat_eq_append, List.getLast?_append] at hlast
    right
    exact ⟨init, by simpa [hrest] using hlast⟩

theorem steps_child (hd : d.text ≠ "") (h : IsName name) :
    ∃ taken trail, d.steps = taken ++ trail ∧ (trail = [] ∨ trail = [.here]) ∧
      (d.child name).steps = taken ++ [.into name] := by
  obtain ⟨habsolute, hrest⟩ := rest_child hd h
  have hname : (name.toList.splitOn '/').map String.ofList = [name] := by
    rw [splitOn_of_not_mem h.slash_not_mem]
    simp
  have hsteps {comps : List String} (hsegments : (d.child name).segments = comps ++ [name]) :
      (d.child name).steps = (comps.filter (· ≠ "")).map stepOf ++ [.into name] := by
    rw [steps, hsegments, if_neg (by simpa using h.ne_empty), List.filter_append, List.map_append]
    simp [h.ne_empty, stepOf_name h]
  by_cases hlast : d.text.toList.getLast? = some '/'
  · rw [if_pos hlast] at hrest
    have hsegments : ∃ comps, d.segments = comps ++ [""] ∧
        (d.child name).segments = comps ++ [name] := by
      rw [segments_eq, segments_eq, hrest]
      rcases rest_of_slash hlast with hroot | ⟨init, hinit⟩
      · exact ⟨[], by rw [hroot]; rfl, by rw [hroot]; exact hname⟩
      · refine ⟨(init.splitOn '/').map String.ofList, ?_, ?_⟩
        · rw [hinit, splitOn_append_cons, List.map_append]
          rfl
        · rw [hinit, List.append_assoc, List.singleton_append, splitOn_append_cons,
            List.map_append, hname]
    obtain ⟨comps, hd, hsegments⟩ := hsegments
    refine ⟨_, [.here], ?_, .inr rfl, hsteps hsegments⟩
    rw [steps, hd, if_pos List.getLast?_concat, List.filter_append]
    simp
  · rw [if_neg hlast] at hrest
    have hsegments : (d.child name).segments = d.segments ++ [name] := by
      rw [segments_eq, segments_eq, hrest, splitOn_append_cons, List.map_append, hname]
    refine ⟨_, [], ?_, .inl rfl, hsteps hsegments⟩
    rw [steps, if_neg (getLast?_segments hd hlast)]

end Path

namespace FileTree

variable {t : FileTree} {d : Path} {name : String} {l m : Location}

theorem locate_child (hl : t.locate d = .ok l) (h : IsName name) :
    t.locate (d.child name) = .ok m ↔ t.entry? l = some .directory ∧
      admits (d.child name) ∧ name.utf8ByteSize ≤ maxName ∧ m = l ++ [name] := by
  obtain ⟨htext, -, hwalk⟩ := locate_eq_ok_iff.mp hl
  obtain ⟨habsolute, -⟩ := Path.rest_child htext h
  obtain ⟨taken, trail, hsteps, htrail, hchild⟩ := Path.steps_child htext h
  have hchildText : (d.child name).text ≠ "" := by
    intro hempty
    have hsteps : (d.child name).steps = (⟨""⟩ : Path).steps := by
      rw [← show d.child name = ⟨""⟩ from congrArg Path.mk hempty]
    rw [hchild, show (⟨""⟩ : Path).steps = [.here] by decide] at hsteps
    simp [List.append_eq_singleton_iff] at hsteps
  have htaken : t.walk (if d.isAbsolute then [] else t.workingDirectory) taken = .ok l := by
    rw [hsteps, walk_append_eq_ok] at hwalk
    obtain ⟨k, hk, hrest⟩ := hwalk
    rcases htrail with rfl | rfl
    · cases hrest
      exact hk
    · obtain ⟨-, -, hrest⟩ := walk_cons_eq_ok.mp hrest
      cases hrest
      exact hk
  rw [locate_eq_ok_iff, habsolute, hchild, walk_append_eq_ok]
  constructor
  · rintro ⟨-, hadmits, k, hk, hname⟩
    rw [htaken] at hk
    cases hk
    obtain ⟨hdir, hsize, hrest⟩ := walk_cons_eq_ok.mp hname
    cases hrest
    exact ⟨hdir, hadmits, hsize name rfl, rfl⟩
  · rintro ⟨hdir, hadmits, hsize, rfl⟩
    refine ⟨hchildText, hadmits, l, htaken, walk_cons_eq_ok.mpr ⟨hdir, ?_, rfl⟩⟩
    intro name' hname'
    cases hname'
    exact hsize

theorem entryAt?_child (hl : t.locate d = .ok l) (h : IsName name) {e : Entry} :
    t.entryAt? (d.child name) = some e ↔ t.entry? l = some .directory ∧
      admits (d.child name) ∧ name.utf8ByteSize ≤ maxName ∧ t.entry? (l ++ [name]) = some e := by
  rw [entryAt?_eq_some]
  constructor
  · rintro ⟨m, hm, he⟩
    obtain ⟨hdir, hadmits, hsize, rfl⟩ := (locate_child hl h).mp hm
    exact ⟨hdir, hadmits, hsize, he⟩
  · rintro ⟨hdir, hadmits, hsize, he⟩
    exact ⟨l ++ [name], (locate_child hl h).mpr ⟨hdir, hadmits, hsize, rfl⟩, he⟩

def nameIn? (l m : Location) : Option String :=
  match l.isPrefixOf? m with
  | some [name] => some name
  | _ => none

theorem nameIn?_eq_some : nameIn? l m = some name ↔ m = l ++ [name] := by
  rw [nameIn?]
  split
  · rename_i name' hname'
    rw [List.isPrefixOf?_eq_some_iff_append_eq] at hname'
    rw [← hname', List.append_cancel_left_eq]
    simp
  · rename_i hnone
    constructor
    · intro h
      cases h
    · intro h
      exact absurd (List.isPrefixOf?_eq_some_iff_append_eq.mpr h.symm) (hnone name)

theorem namesIn_eq (t : FileTree) (l : Location) :
    t.namesIn l = ((t.entries.map Prod.fst).filterMap (nameIn? l)).mergeSort (· ≤ ·) := by
  rw [List.filterMap_map]
  rfl

theorem mem_namesIn : name ∈ t.namesIn l ↔ (t.entry? (l ++ [name])).isSome := by
  rw [namesIn_eq, List.mem_mergeSort, List.mem_filterMap, entry?_eq, if_neg (by simp),
    List.lookup_isSome_iff]
  simp only [List.mem_map, nameIn?_eq_some]
  constructor
  · rintro ⟨-, ⟨entry, hentry, rfl⟩, hname⟩
    exact ⟨entry, hentry, by simp [hname]⟩
  · rintro ⟨entry, hentry, hname⟩
    exact ⟨entry.1, ⟨entry, hentry, rfl⟩, by simpa using (eq_of_beq hname).symm⟩

theorem pairwise_namesIn (t : FileTree) (l : Location) : (t.namesIn l).Pairwise (· ≤ ·) := by
  rw [namesIn_eq]
  refine (List.pairwise_mergeSort ?_ ?_ _).imp of_decide_eq_true
  · intro a b c hab hbc
    exact decide_eq_true (String.le_trans (of_decide_eq_true hab) (of_decide_eq_true hbc))
  · intro a b
    simpa using String.le_total a b

theorem nodup_namesIn (h : (t.entries.map Prod.fst).Nodup) (l : Location) : (t.namesIn l).Nodup := by
  rw [namesIn_eq, (List.mergeSort_perm _ _).nodup_iff]
  apply h.filterMap
  intro m m' name hm hm'
  rw [nameIn?_eq_some.mp hm, nameIn?_eq_some.mp hm']

/-- Names that are kept of a longer list of names are the names of a shorter one. -/
theorem filter_names {names names' : List String} (hnodup : names.Nodup) (hnodup' : names'.Nodup)
    (hsorted : names.Pairwise (· ≤ ·)) (hsorted' : names'.Pairwise (· ≤ ·)) {keep : String → Bool}
    (h : ∀ name, name ∈ names ↔ name ∈ names' ∧ keep name) : names'.filter keep = names := by
  apply List.Perm.eq_of_pairwise (fun _ _ _ _ ↦ String.le_antisymm) (hsorted'.filter keep) hsorted
  rw [List.perm_ext_iff_of_nodup (hnodup'.filter keep) hnodup]
  intro name
  rw [List.mem_filter, h]

theorem list_eq_ok_iff {names : List String} : t.list d = .ok names ↔
    ∃ l, t.locate d = .ok l ∧ t.entry? l = some .directory ∧ names = t.namesIn l := by
  rw [list]
  cases hl : t.locate d with
  | error fault => simp [bind, Except.bind]
  | ok l =>
    cases he : t.entry? l with
    | none => simp [bind, Except.bind, he]
    | some e => cases e <;> simp [bind, Except.bind, he, pure, Except.pure, eq_comm]

end FileTree

end HookPatch
