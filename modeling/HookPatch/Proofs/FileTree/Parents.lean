import HookPatch.Proofs.FileTree.Access

namespace HookPatch

namespace Path

def root (p : Path) : String := if p.isAbsolute then "/" else ""

theorem not_mem_of_mem_splitOn {c : Char} {s part : List Char} (h : part ∈ s.splitOn c) :
    c ∉ part := by
  induction s generalizing part with
  | nil => simp_all
  | cons d s ih =>
    rw [List.splitOn_cons_eq_if_modifyHead] at h
    split at h
    · rcases List.mem_cons.mp h with rfl | h
      · simp
      · exact ih h
    · rename_i hd
      cases hparts : s.splitOn c with
      | nil => exact absurd hparts (List.splitOn_ne_nil c s)
      | cons first rest =>
        rw [hparts, List.modifyHead_cons] at h
        rcases List.mem_cons.mp h with rfl | h
        · have hfirst := ih (hparts ▸ List.mem_cons_self : first ∈ s.splitOn c)
          rw [List.mem_cons, not_or]
          exact ⟨fun hcd ↦ hd (by simp [hcd]), hfirst⟩
        · exact ih (hparts ▸ List.mem_cons_of_mem _ h)

def rest (p : Path) : List Char := if p.isAbsolute then p.text.toList.tail else p.text.toList

theorem toList_text (p : Path) : p.text.toList = p.root.toList ++ p.rest := by
  rw [root, rest]
  split
  · rename_i h
    obtain ⟨tail, htext⟩ := List.head?_eq_some_iff.mp (by simpa [isAbsolute] using h)
    rw [htext]
    rfl
  · simp

theorem segments_eq (p : Path) : p.segments = (p.rest.splitOn '/').map String.ofList := by
  rw [segments, rest]
  split
  · rename_i h
    obtain ⟨tail, htext⟩ := List.head?_eq_some_iff.mp (by simpa [isAbsolute] using h)
    rw [htext, List.splitOn_cons_eq_if_modifyHead]
    simp
  · rfl

theorem text_eq (p : Path) : p.text = p.root ++ "/".intercalate p.segments := by
  rw [← String.toList_inj, String.toList_append, String.toList_intercalate, segments_eq,
    toList_text, List.map_map]
  have hid : (String.toList ∘ String.ofList) = id := by
    funext s
    simp
  rw [hid, List.map_id]
  exact congrArg _ (List.intercalate_splitOn '/').symm

theorem not_mem_segment {p : Path} {s : String} (h : s ∈ p.segments) : '/' ∉ s.toList := by
  rw [segments_eq] at h
  obtain ⟨part, hpart, rfl⟩ := List.mem_map.mp h
  simpa using not_mem_of_mem_splitOn hpart

theorem segments_of_text {q : Path} {comps : List String} (htext : q.text = q.root ++ "/".intercalate comps)
    (hcomps : ∀ s ∈ comps, '/' ∉ s.toList) (hne : comps ≠ []) : q.segments = comps := by
  have hrest : q.rest = ['/'].intercalate (comps.map String.toList) := by
    have h := congrArg String.toList htext
    rw [toList_text, String.toList_append, List.append_cancel_left_eq, String.toList_intercalate] at h
    exact h
  rw [segments_eq, hrest, List.splitOn_intercalate '/' ?_ (by simpa using hne), List.map_map]
  · exact (List.map_congr_left fun s _ ↦ String.ofList_toList).trans (List.map_id comps)
  · intro part hpart
    obtain ⟨s, hs, rfl⟩ := List.mem_map.mp hpart
    exact hcomps s hs

theorem dropEmpty_spec (relative : Bool) (l : List String) :
    ∃ dropped, l = dropped ++ dropEmpty relative l := by
  induction l with
  | nil => exact ⟨[], rfl⟩
  | cons s l ih =>
    rw [dropEmpty]
    split
    · obtain ⟨dropped, h⟩ := ih
      exact ⟨s :: dropped, by rw [List.cons_append, ← h]⟩
    · exact ⟨[], rfl⟩

theorem head_dropEmpty {relative : Bool} {l : List String} {s : String}
    (h : (dropEmpty relative l).head? = some s) : s ≠ "" := by
  induction l with
  | nil => cases h
  | cons a l ih =>
    rw [dropEmpty] at h
    split at h
    · exact ih h
    · rename_i ha
      simp only [List.head?_cons, Option.some.injEq] at h
      rintro rfl
      simp [h] at ha

theorem mem_intercalate {α : Type} {separator part : List α} {parts : List (List α)}
    (hpart : part ∈ parts) {c : α} (hc : c ∈ part) : c ∈ separator.intercalate parts := by
  induction parts with
  | nil => cases hpart
  | cons first rest ih =>
    cases rest with
    | nil => simp_all
    | cons second rest =>
      rw [List.intercalate_cons_cons, List.mem_append, List.mem_append]
      rcases List.mem_cons.mp hpart with rfl | hpart
      · exact .inl (.inl hc)
      · exact .inr (ih hpart)

theorem mem_text_of_mem_fileName {p : Path} {name : String} (h : p.fileName? = some name) {c : Char}
    (hc : c ∈ name.toList) : c ∈ p.text.toList := by
  have hname : name ∈ p.segments := by
    obtain ⟨dropped, hdropped⟩ := dropEmpty_spec (!p.isAbsolute) p.segments.reverse
    rw [← List.mem_reverse, hdropped, List.mem_append]
    rw [fileName?, reversed] at h
    split at h
    · cases h
    · rename_i s rest hreversed
      split at h
      · cases h
      · cases h
        rw [hreversed]
        exact .inr List.mem_cons_self
  rw [text_eq, String.toList_append, String.toList_intercalate, List.mem_append]
  exact .inr (mem_intercalate (List.mem_map_of_mem hname) hc)

/-- A parent is written from the first segments of the path, up to one with text. -/
theorem parent?_spec {p q : Path} (h : p.parent? = some q) :
    ∃ comps more, p.segments = comps ++ more ∧ (∃ s ∈ more, s ≠ "") ∧
      (∀ s, comps.getLast? = some s → s ≠ "") ∧ q.text = p.root ++ "/".intercalate comps := by
  rw [parent?] at h
  split at h
  · cases h
  · rename_i s rest hreversed
    obtain ⟨dropped, hdropped⟩ := dropEmpty_spec (!p.isAbsolute) p.segments.reverse
    obtain ⟨dropped', hdropped'⟩ := dropEmpty_spec (!p.isAbsolute) rest
    rw [reversed] at hreversed
    rw [hreversed] at hdropped
    refine ⟨(dropEmpty (!p.isAbsolute) rest).reverse,
      dropped'.reverse ++ s :: dropped.reverse, ?_, ⟨s, by simp, ?_⟩, ?_, ?_⟩
    · have hsegments := congrArg List.reverse hdropped
      have hrest := congrArg List.reverse hdropped'
      rw [List.reverse_append] at hrest
      rw [List.reverse_reverse, List.reverse_append, List.reverse_cons, hrest] at hsegments
      simpa using hsegments
    · have hhead : (dropEmpty (!p.isAbsolute) p.segments.reverse).head? = some s := by
        rw [hreversed]
        rfl
      exact head_dropEmpty hhead
    · intro s' hs'
      rw [List.getLast?_reverse] at hs'
      exact head_dropEmpty hs'
    · have hq := congrArg Path.text (Option.some.inj h)
      rw [← hq, root]
      split <;> simp

theorem root_eq_iff {p q : Path} : q.root = p.root ↔ q.isAbsolute = p.isAbsolute := by
  rw [root, root]
  cases p.isAbsolute <;> cases q.isAbsolute <;> simp

section Parent

variable {p q : Path} (h : p.parent? = some q) (hq : q.text ≠ "")

include h

theorem text_parent : ∃ s, p.text = q.text ++ s := by
  obtain ⟨comps, more, hsegments, ⟨s, hs, -⟩, -, htext⟩ := parent?_spec h
  have hmore : more ≠ [] := List.ne_nil_of_mem hs
  rw [text_eq p, hsegments, htext]
  cases comps with
  | nil => exact ⟨"/".intercalate more, by simp⟩
  | cons a comps =>
    rw [String.intercalate_append_of_ne_nil (by simp) hmore]
    exact ⟨"/" ++ "/".intercalate more, by simp only [String.append_assoc]⟩

include hq

theorem root_parent : q.root = p.root := by
  obtain ⟨s, hs⟩ := text_parent h
  obtain ⟨c, cs, hcs⟩ : ∃ c cs, q.text.toList = c :: cs := by
    rw [← List.ne_nil_iff_exists_cons]
    simpa using hq
  rw [root_eq_iff, isAbsolute, isAbsolute, hs, String.toList_append, hcs]
  rfl

/-- A parent takes the first steps of the path, and stays where it is after a bare root. -/
theorem steps_parent : ∃ taken s left, p.steps = taken ++ s :: left ∧
    (q.steps = taken ∨ p.isAbsolute ∧ taken = [] ∧ q.steps = [.here]) := by
  obtain ⟨comps, more, hsegments, ⟨s, hs, hne⟩, hlast, htext⟩ := parent?_spec h
  have hsteps : ∃ step left, p.steps = (comps.filter (· ≠ "")).map stepOf ++ step :: left := by
    rw [steps, hsegments, List.filter_append, List.map_append, List.append_assoc]
    have hmem : stepOf s ∈ (more.filter (· ≠ "")).map stepOf :=
      List.mem_map_of_mem (List.mem_filter.mpr ⟨hs, by simpa using hne⟩)
    obtain ⟨step, left, hleft⟩ := List.ne_nil_iff_exists_cons.mp (List.ne_nil_of_mem hmem)
    rw [hleft]
    exact ⟨step, _, rfl⟩
  obtain ⟨step, left, hsteps⟩ := hsteps
  refine ⟨_, step, left, hsteps, ?_⟩
  rw [← root_parent h hq] at htext
  cases comps with
  | nil =>
    right
    have habsolute : q.isAbsolute := by
      cases hrelative : q.isAbsolute with
      | true => rfl
      | false => exact absurd (by simpa [root, hrelative] using htext) hq
    have hroot : q = ⟨"/"⟩ := congrArg Path.mk (by simpa [root, habsolute] using htext)
    rw [root_eq_iff.mp (root_parent h hq)] at habsolute
    exact ⟨habsolute, rfl, by rw [hroot]; decide⟩
  | cons a comps =>
    left
    have hq' : q.segments = a :: comps := by
      refine segments_of_text htext (fun s hs ↦ ?_) (by simp)
      exact not_mem_segment (hsegments ▸ List.mem_append_left _ hs)
    rw [steps, hq', if_neg (fun hempty ↦ hlast "" hempty rfl), List.append_nil]

end Parent

end Path

end HookPatch
