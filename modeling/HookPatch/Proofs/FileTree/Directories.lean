import HookPatch.Proofs.FileTree.Parents

namespace HookPatch.FileTree

variable {t t' : FileTree} {p q : Path}

structure Grows (t t' : FileTree) : Prop where
  workingDirectory : t'.workingDirectory = t.workingDirectory
  entries : ∀ l e, t.entry? l = some e → t'.entry? l = some e

namespace Grows

theorem refl (t : FileTree) : Grows t t := ⟨rfl, fun _ _ h ↦ h⟩

theorem trans {t'' : FileTree} (h : Grows t t') (h' : Grows t' t'') : Grows t t'' :=
  ⟨h'.workingDirectory.trans h.workingDirectory, fun l e he ↦ h'.entries l e (h.entries l e he)⟩

theorem entryAt? (h : Grows t t') {e : Entry} (he : t.entryAt? p = some e) :
    t'.entryAt? p = some e := by
  obtain ⟨l, hl, he⟩ := entryAt?_eq_some.mp he
  have hdirs : HasDirectories t t' := ⟨h.workingDirectory, fun l hl ↦ h.entries l _ hl⟩
  exact entryAt?_eq_some.mpr ⟨l, hdirs.locate hl, h.entries l e he⟩

theorem isDirectory (h : Grows t t') (hp : t.isDirectory p) : t'.isDirectory p :=
  isDirectory_iff.mpr (h.entryAt? (isDirectory_iff.mp hp))

end Grows

theorem grows_makeDirectory (h : t.makeDirectory p = .ok t') : Grows t t' := by
  rw [makeDirectory] at h
  generalize (if p.segments.getLast? = some "" then p.steps.dropLast else p.steps) = steps at h
  cases hl : t.follow p steps with
  | error fault => rw [hl] at h; cases h
  | ok l =>
    simp only [hl, bind, Except.bind] at h
    split at h
    · cases h
    · rename_i hnone
      cases h
      refine ⟨rfl, fun m e he ↦ ?_⟩
      have hml : m ≠ l := by
        rintro rfl
        rw [hnone] at he
        cases he
      rw [entry?_put (ne_nil_of_not_directory (by rw [hnone]; simp)), if_neg hml, he]

theorem grows_makeDirectories (paths : List Path) : Grows t (t.makeDirectories paths).1 := by
  induction paths generalizing t with
  | nil => exact .refl t
  | cons p rest ih =>
    rw [makeDirectories]
    split
    · rename_i made hmade
      exact (grows_makeDirectory hmade).trans ih
    · split
      · exact ih
      · exact .refl t

theorem grows_makePath (p : Path) : Grows t (t.makePath p).1 := by
  rw [makePath]
  split
  · exact .refl t
  · split
    · exact .refl t
    · exact grows_makeDirectories _

theorem exists_of_makeDirectories {paths : List Path} {fault : AccessFault}
    (h : t.makeDirectories paths = (t', .error fault)) : ∃ p ∈ paths, ¬ t'.isDirectory p := by
  induction paths generalizing t with
  | nil => cases h
  | cons p rest ih =>
    rw [makeDirectories] at h
    split at h
    · obtain ⟨q, hq, hnot⟩ := ih h
      exact ⟨q, List.mem_cons_of_mem _ hq, hnot⟩
    · split at h
      · obtain ⟨q, hq, hnot⟩ := ih h
        exact ⟨q, List.mem_cons_of_mem _ hq, hnot⟩
      · rename_i hnot
        cases h
        exact ⟨p, List.mem_cons_self, hnot⟩

/-- A path leads somewhere only from a directory that its parent leads to. -/
theorem isDirectory_parent (h : p.parent? = some q) (hq : q.text ≠ "") (hp : t.existsAt p) :
    t.isDirectory q := by
  obtain ⟨e, he⟩ := existsAt_iff.mp hp
  obtain ⟨l, hl, -⟩ := entryAt?_eq_some.mp he
  obtain ⟨htext, hadmits, hwalk⟩ := locate_eq_ok_iff.mp hl
  obtain ⟨s, hs⟩ := Path.text_parent h
  have hadmits' : admits q := by
    simp only [admits, hs, String.toList_append, Bool.and_eq_true, Bool.not_eq_true',
      List.contains_eq_mem, List.mem_append, decide_eq_false_iff_not, not_or, decide_eq_true_eq,
      String.utf8ByteSize_append] at hadmits ⊢
    exact ⟨hadmits.1.1, by omega⟩
  have habsolute := Path.root_eq_iff.mp (Path.root_parent h hq)
  obtain ⟨taken, s, left, hsteps, hq'⟩ := Path.steps_parent h hq
  rw [hsteps, walk_append_eq_ok] at hwalk
  obtain ⟨k, hk, hrest⟩ := hwalk
  have hdir := (walk_cons_eq_ok.mp hrest).1
  refine isDirectory_iff.mpr (entryAt?_eq_some.mpr ⟨k, locate_eq_ok_iff.mpr ⟨hq, hadmits', ?_⟩, hdir⟩)
  rw [habsolute]
  rcases hq' with hq' | ⟨hroot, rfl, hq'⟩
  · rw [hq', hk]
  · rw [hq', hroot]
    rw [hroot] at hk
    cases hk
    rfl

theorem isDirectory_ancestorsFor {fuel : Nat} (hp : t.isDirectory p)
    (hq : q ∈ Path.ancestorsFor fuel p) (htext : q.text ≠ "") : t.isDirectory q := by
  induction fuel generalizing p with
  | zero =>
    rw [Path.ancestorsFor, List.mem_singleton] at hq
    exact hq ▸ hp
  | succ fuel ih =>
    rw [Path.ancestorsFor] at hq
    split at hq
    · rw [List.mem_singleton] at hq
      exact hq ▸ hp
    · rename_i parent hparent
      rcases List.mem_cons.mp hq with rfl | hq
      · exact hp
      by_cases hempty : parent.text = ""
      · -- The empty path has no parent of its own.
        obtain rfl : parent = ⟨""⟩ := congrArg Path.mk hempty
        have hnone : Path.parent? ⟨""⟩ = none := by decide
        cases fuel with
        | zero => simp_all [Path.ancestorsFor]
        | succ fuel => simp_all [Path.ancestorsFor]
      · have hexists : t.existsAt p := existsAt_iff.mpr ⟨_, isDirectory_iff.mp hp⟩
        exact ih (isDirectory_parent hparent hempty hexists) hq

theorem not_isDirectory_of_makePath {fault : AccessFault} (h : t.makePath p = (t', .error fault)) :
    ¬ t'.isDirectory p := by
  intro hp
  rw [makePath] at h
  split at h
  · cases h
  · split at h
    · rename_i hadmits
      obtain ⟨l, hl, -⟩ := entryAt?_eq_some.mp (isDirectory_iff.mp hp)
      rw [(locate_eq_ok_iff.mp hl).2.1] at hadmits
      cases hadmits
    · obtain ⟨q, hq, hnot⟩ := exists_of_makeDirectories h
      rw [List.mem_reverse, List.mem_filter] at hq
      exact hnot (isDirectory_ancestorsFor hp hq.1 (by simpa using hq.2))

end HookPatch.FileTree
