import HookPatch.DocumentError
import HookPatch.Proofs.FileTree.Children
import HookPatch.Proofs.FileTree.Directories

namespace HookPatch

namespace Path

/-- The steps by which a directory is made, which leave out a slash at the end. -/
def makingSteps (p : Path) : List Step :=
  if p.segments.getLast? = some "" then p.steps.dropLast else p.steps

theorem steps_eq_makingSteps (p : Path) :
    p.steps = p.makingSteps ∨ p.steps = p.makingSteps ++ [.here] := by
  rw [makingSteps]
  split
  · rename_i hslash
    right
    rw [steps, if_pos hslash, List.dropLast_concat]
  · exact .inl rfl

theorem isName_of_mem_steps {p : Path} {name : String} (h : .into name ∈ p.steps) : IsName name := by
  rw [steps, List.mem_append] at h
  rcases h with h | h
  · obtain ⟨segment, hsegment, hstep⟩ := List.mem_map.mp h
    obtain ⟨hsegment, hempty⟩ := List.mem_filter.mp hsegment
    rw [stepOf] at hstep
    split at hstep
    · cases hstep
    · split at hstep
      · cases hstep
      · cases hstep
        exact ⟨by simpa using hempty, not_mem_segment hsegment, ‹_›, ‹_›⟩
  · split at h <;> simp at h

theorem isName_of_mem_makingSteps {p : Path} {name : String} (h : .into name ∈ p.makingSteps) :
    IsName name := by
  apply isName_of_mem_steps (p := p)
  rcases steps_eq_makingSteps p with hsteps | hsteps
  · rwa [hsteps]
  · rw [hsteps]
    exact List.mem_append_left _ h

end Path

namespace FileTree

/-- A tree as a file system holds it. -/
structure WellFormed (t : FileTree) : Prop where
  nodup : (t.entries.map Prod.fst).Nodup
  workingDirectory : t.entry? t.workingDirectory = some .directory
  parent : ∀ l name, (t.entry? (l ++ [name])).isSome → t.entry? l = some .directory ∧ IsName name

variable {t t' t'' : FileTree} {p q : Path} {l m : Location}

namespace WellFormed

theorem dropLast (h : t.WellFormed) (hl : t.entry? l = some .directory) :
    t.entry? l.dropLast = some .directory := by
  rcases List.eq_nil_or_concat l with rfl | ⟨k, name, rfl⟩
  · exact hl
  · rw [List.concat_eq_append] at hl ⊢
    rw [List.dropLast_concat]
    exact (h.parent k name (by rw [hl]; rfl)).1

/-- Whatever steps lead to is a directory or has a place in one. -/
theorem walk_cases (h : t.WellFormed) {steps : List Path.Step}
    (hnames : ∀ name, .into name ∈ steps → IsName name) (hl : t.entry? l = some .directory)
    (hwalk : t.walk l steps = .ok m) : t.entry? m = some .directory ∨
      ∃ k name, m = k ++ [name] ∧ t.entry? k = some .directory ∧ IsName name := by
  rcases List.eq_nil_or_concat steps with rfl | ⟨init, s, rfl⟩
  · cases hwalk
    exact .inl hl
  rw [List.concat_eq_append] at hwalk hnames
  obtain ⟨k, -, hlast⟩ := walk_append_eq_ok.mp hwalk
  obtain ⟨hk, -, hm⟩ := walk_cons_eq_ok.mp hlast
  cases hm
  cases s with
  | here => exact .inl hk
  | up => exact .inl (h.dropLast hk)
  | into name => exact .inr ⟨k, name, rfl, hk, hnames name (by simp)⟩

theorem put (h : t.WellFormed) {e : Entry} (hl : t.entry? l ≠ some .directory)
    (hparent : ∃ k name, l = k ++ [name] ∧ t.entry? k = some .directory ∧ IsName name) :
    (t.put l e).WellFormed where
  nodup := by
    rw [FileTree.put, List.map_cons, List.nodup_cons]
    refine ⟨?_, h.nodup.sublist (List.filter_sublist.map _)⟩
    rw [List.mem_map]
    rintro ⟨entry, hentry, hkey⟩
    simpa [hkey] using (List.mem_filter.mp hentry).2
  workingDirectory := (hasDirectories_put hl).directories _ h.workingDirectory
  parent m name hsome := by
    rw [entry?_put (ne_nil_of_not_directory hl)] at hsome
    split at hsome
    · rename_i hml
      obtain ⟨k, name', rfl, hk, hname⟩ := hparent
      obtain ⟨rfl, hlast⟩ := List.append_inj' hml rfl
      cases hlast
      exact ⟨(hasDirectories_put hl).directories _ hk, hname⟩
    · obtain ⟨hm, hname⟩ := h.parent m name hsome
      exact ⟨(hasDirectories_put hl).directories _ hm, hname⟩

end WellFormed

theorem WellFormed.of_entries (hnodup : (t.entries.map Prod.fst).Nodup)
    (hworking : t.entry? t.workingDirectory = some .directory)
    (h : ∀ e ∈ t.entries, t.entry? e.1.dropLast = some .directory ∧ IsName (e.1.getLastD "")) :
    t.WellFormed := by
  refine ⟨hnodup, hworking, fun l name hsome ↦ ?_⟩
  rw [entry?_eq, if_neg (by simp), List.lookup_isSome_iff] at hsome
  obtain ⟨e, he, hkey⟩ := hsome
  have hentry := h e he
  rwa [← eq_of_beq hkey, List.dropLast_concat, List.getLastD_concat] at hentry

/-- Another tree has the same entries, except for files at locations in `P` and new directories at
locations in `D`. -/
structure Extends (P D : Location → Prop) (t t' : FileTree) : Prop where
  workingDirectory : t'.workingDirectory = t.workingDirectory
  directories : ∀ l, t.entry? l = some .directory → t'.entry? l = some .directory
  entries : ∀ l, ¬ P l → t'.entry? l = t.entry? l ∨
    D l ∧ t.entry? l = none ∧ t'.entry? l = some .directory
  wellFormed : t.WellFormed → t'.WellFormed

namespace Extends

variable {P D : Location → Prop}

theorem hasDirectories (h : Extends P D t t') : HasDirectories t t' :=
  ⟨h.workingDirectory, h.directories⟩

theorem refl (t : FileTree) : Extends P D t t := ⟨rfl, fun _ h ↦ h, fun _ _ ↦ .inl rfl, id⟩

theorem trans (h : Extends P D t t') (h' : Extends P D t' t'') : Extends P D t t'' where
  workingDirectory := h'.workingDirectory.trans h.workingDirectory
  directories l hl := h'.directories l (h.directories l hl)
  entries l hl := by
    rcases h.entries l hl with hsame | ⟨hD, hnone, hnew⟩
    · rw [← hsame]
      exact h'.entries l hl
    · exact .inr ⟨hD, hnone, h'.directories l hnew⟩
  wellFormed ht := h'.wellFormed (h.wellFormed ht)

theorem write {content : ByteArray} (h : t.write p content = .ok t')
    (hp : P (p.locationFrom t.workingDirectory)) : Extends P D t t' := by
  obtain ⟨l, hl, hdir, rfl⟩ := write_eq_ok_iff.mp h
  have hdirs := hasDirectories_put (e := .file content) hdir
  refine ⟨rfl, hdirs.directories, fun m hm ↦ .inl ?_, fun ht ↦ ht.put hdir ?_⟩
  · have hml : m ≠ l := by
      rintro rfl
      exact hm (locate_eq_ok hl ▸ hp)
    rw [entry?_put (ne_nil_of_not_directory hdir), if_neg hml]
  · obtain ⟨-, -, hwalk⟩ := locate_eq_ok_iff.mp hl
    have hroot : t.entry? (if p.isAbsolute then [] else t.workingDirectory) = some .directory := by
      split
      · rfl
      · exact ht.workingDirectory
    exact (ht.walk_cases (fun _ ↦ Path.isName_of_mem_steps) hroot hwalk).resolve_left hdir

end Extends

section Make

theorem makeDirectory_eq_ok_iff : t.makeDirectory p = .ok t' ↔ ∃ l,
    t.follow p p.makingSteps = .ok l ∧ t.entry? l = none ∧ t' = t.put l .directory := by
  rw [makeDirectory]
  change (t.follow p p.makingSteps >>= _) = _ ↔ _
  cases hl : t.follow p p.makingSteps with
  | error fault => simp [bind, Except.bind]
  | ok l =>
    simp only [bind, Except.bind, Except.ok.injEq, exists_eq_left']
    cases he : t.entry? l <;> simp [pure, Except.pure, eq_comm]

theorem locate_of_follow (hl : t.follow p p.makingSteps = .ok l)
    (hdir : t.entry? l = some .directory) : t.locate p = .ok l := by
  obtain ⟨htext, hadmits, hwalk⟩ := follow_eq_ok_iff.mp hl
  refine locate_eq_ok_iff.mpr ⟨htext, hadmits, ?_⟩
  rcases p.steps_eq_makingSteps with hsteps | hsteps
  · rw [hsteps, hwalk]
  · rw [hsteps, walk_append_eq_ok]
    exact ⟨l, hwalk, walk_cons_eq_ok.mpr ⟨hdir, by simp, rfl⟩⟩

theorem follow_of_locate (hl : t.locate p = .ok l) : t.follow p p.makingSteps = .ok l := by
  obtain ⟨htext, hadmits, hwalk⟩ := locate_eq_ok_iff.mp hl
  refine follow_eq_ok_iff.mpr ⟨htext, hadmits, ?_⟩
  rcases p.steps_eq_makingSteps with hsteps | hsteps
  · rwa [hsteps] at hwalk
  · rw [hsteps, walk_append_eq_ok] at hwalk
    obtain ⟨k, hk, hhere⟩ := hwalk
    obtain ⟨-, -, hrest⟩ := walk_cons_eq_ok.mp hhere
    cases hrest
    exact hk

theorem locationFrom_of_follow (hl : t.follow p p.makingSteps = .ok l) :
    l = p.locationFrom t.workingDirectory := by
  obtain ⟨-, -, hwalk⟩ := follow_eq_ok_iff.mp hl
  have hwalked (l : Location) (steps : List Path.Step) :
      Path.walked l (steps ++ [.here]) = Path.walked l steps := by
    induction steps generalizing l with
    | nil => rfl
    | cons s rest ih => rw [List.cons_append, walked_cons, ih, ← walked_cons]
  rw [Path.locationFrom, walk_eq_ok hwalk]
  rcases p.steps_eq_makingSteps with hsteps | hsteps
  · rw [hsteps]
  · rw [hsteps, hwalked]

theorem isDirectory_of_makeDirectory (h : t.makeDirectory p = .ok t') : t'.isDirectory p := by
  obtain ⟨l, hl, hnone, rfl⟩ := makeDirectory_eq_ok_iff.mp h
  have hnot : t.entry? l ≠ some .directory := by simp [hnone]
  have hnew : FileTree.entry? (t.put l .directory) l = some .directory := by
    rw [entry?_put (ne_nil_of_not_directory hnot), if_pos rfl]
  have hfollow : (t.put l .directory).follow p p.makingSteps = .ok l := by
    obtain ⟨htext, hadmits, hwalk⟩ := follow_eq_ok_iff.mp hl
    refine follow_eq_ok_iff.mpr ⟨htext, hadmits, ?_⟩
    exact walk_mono (hasDirectories_put hnot).directories hwalk
  exact isDirectory_iff.mpr (entryAt?_eq_some.mpr ⟨l, locate_of_follow hfollow hnew, hnew⟩)

theorem makeDirectory_of_isDirectory (h : t.isDirectory p) :
    ∃ fault, t.makeDirectory p = .error fault := by
  cases hmake : t.makeDirectory p with
  | error fault => exact ⟨fault, rfl⟩
  | ok t' =>
    obtain ⟨l, hl, hnone, -⟩ := makeDirectory_eq_ok_iff.mp hmake
    obtain ⟨m, hm, hdir⟩ := entryAt?_eq_some.mp (isDirectory_iff.mp h)
    rw [follow_of_locate hm] at hl
    cases hl
    rw [hnone] at hdir
    cases hdir

variable {paths : List Path}

theorem isDirectory_of_makeDirectories (h : t.makeDirectories paths = (t', .ok ())) :
    ∀ q ∈ paths, t'.isDirectory q := by
  induction paths generalizing t with
  | nil => simp
  | cons p paths ih =>
    rw [makeDirectories] at h
    have hgrows (t : FileTree) := grows_makeDirectories (t := t) paths
    split at h
    · rename_i made hmade
      refine List.forall_mem_cons.mpr ⟨?_, ih h⟩
      have hmade := (hgrows made).isDirectory (isDirectory_of_makeDirectory hmade)
      rwa [h] at hmade
    · split at h
      · rename_i hdir
        refine List.forall_mem_cons.mpr ⟨?_, ih h⟩
        have hkept := (hgrows t).isDirectory hdir
        rwa [h] at hkept
      · cases h

theorem makeDirectories_of_isDirectory (h : ∀ q ∈ paths, t.isDirectory q) :
    t.makeDirectories paths = (t, .ok ()) := by
  induction paths with
  | nil => rfl
  | cons p paths ih =>
    obtain ⟨hp, hpaths⟩ := List.forall_mem_cons.mp h
    obtain ⟨fault, hfault⟩ := makeDirectory_of_isDirectory hp
    rw [makeDirectories, hfault]
    simp only [hp, if_true]
    exact ih hpaths

def directoriesFor (p : Path) : List Path := (p.ancestors.filter (!·.text.isEmpty)).reverse

theorem makePath_again (h : t.makePath p = (t', .ok ())) {t'' : FileTree}
    (hkept : ∀ q, t'.isDirectory q → t''.isDirectory q) : t''.makePath p = (t'', .ok ()) := by
  rw [makePath] at h ⊢
  split at h
  · rename_i hempty
    rw [if_pos hempty]
  · rename_i hempty
    split at h
    · cases h
    · rename_i hadmits
      rw [if_neg hempty, if_neg hadmits]
      exact makeDirectories_of_isDirectory fun q hq ↦ hkept q (isDirectory_of_makeDirectories h q hq)

end Make

namespace Extends

variable {P D : Location → Prop}

theorem makeDirectory (h : t.makeDirectory p = .ok t') (hp : D (p.locationFrom t.workingDirectory)) :
    Extends P D t t' := by
  obtain ⟨l, hl, hnone, rfl⟩ := makeDirectory_eq_ok_iff.mp h
  have hnot : t.entry? l ≠ some .directory := by simp [hnone]
  refine ⟨rfl, (hasDirectories_put hnot).directories, fun m hm ↦ ?_, fun ht ↦ ht.put hnot ?_⟩
  · rw [entry?_put (ne_nil_of_not_directory hnot)]
    split
    · rename_i hml
      exact .inr ⟨hml ▸ locationFrom_of_follow hl ▸ hp, hml ▸ hnone, rfl⟩
    · exact .inl rfl
  · obtain ⟨-, -, hwalk⟩ := follow_eq_ok_iff.mp hl
    have hroot : t.entry? (if p.isAbsolute then [] else t.workingDirectory) = some .directory := by
      split
      · rfl
      · exact ht.workingDirectory
    exact (ht.walk_cases (fun _ ↦ Path.isName_of_mem_makingSteps) hroot hwalk).resolve_left hnot

theorem makeDirectories {paths : List Path}
    (hD : ∀ q ∈ paths, D (q.locationFrom t.workingDirectory)) :
    Extends P D t (t.makeDirectories paths).1 := by
  induction paths generalizing t with
  | nil => exact refl t
  | cons p paths ih =>
    obtain ⟨hp, hpaths⟩ := List.forall_mem_cons.mp hD
    rw [FileTree.makeDirectories]
    split
    · rename_i made hmade
      have hfirst : Extends P D t made := .makeDirectory hmade hp
      exact hfirst.trans (ih (hfirst.workingDirectory ▸ hpaths))
    · split
      · exact ih hpaths
      · exact refl t

theorem makePath (hD : ∀ q ∈ directoriesFor p, D (q.locationFrom t.workingDirectory)) :
    Extends P D t (t.makePath p).1 := by
  rw [FileTree.makePath]
  split
  · exact refl t
  · split
    · exact refl t
    · exact makeDirectories hD

end Extends

/-- Whether a path leads to the same file in two trees, or to none. -/
def ReadsAlike (t t' : FileTree) (p : Path) : Prop :=
  ∀ content, t'.read p = .ok content ↔ t.read p = .ok content

namespace ReadsAlike

theorem isFile_eq (h : ReadsAlike t t' p) : t'.isFile p = t.isFile p := by
  rw [Bool.eq_iff_iff, isFile_iff, isFile_iff]
  refine exists_congr fun content ↦ ?_
  rw [← read_eq_ok_iff, ← read_eq_ok_iff, h]

theorem readText (h : ReadsAlike t t' p) {text : String} :
    t'.readText p = .ok text ↔ t.readText p = .ok text := by
  rw [readText_eq_ok_iff, readText_eq_ok_iff]
  exact exists_congr fun content ↦ and_congr_left fun _ ↦ h content

theorem readText_cases (h : ReadsAlike t t' p) :
    (∃ text, t.readText p = .ok text ∧ t'.readText p = .ok text) ∨
      ∃ fault fault', t.readText p = .error fault ∧ t'.readText p = .error fault' := by
  cases ht : t.readText p with
  | ok text => exact .inl ⟨text, rfl, h.readText.mpr ht⟩
  | error fault =>
    cases ht' : t'.readText p with
    | ok text =>
      rw [h.readText.mp ht'] at ht
      cases ht
    | error fault' => exact .inr ⟨fault, fault', rfl, rfl⟩

theorem loadDocument_eq (h : ReadsAlike t t' p) {α : Type} (kind : DocumentKind) (format : Fault)
    (read? : String → Option α) :
    loadDocument kind format read? t' p = loadDocument kind format read? t p := by
  rw [loadDocument, loadDocument]
  rcases h.readText_cases with ⟨text, ht, ht'⟩ | ⟨fault, fault', ht, ht'⟩
  · rw [ht, ht']
  · rw [ht, ht']

end ReadsAlike

namespace Extends

variable {P D : Location → Prop} {d : Path} {name : String} (h : Extends P D t t')

include h

theorem entryAt? {e : Entry} (he : t.entryAt? p = some e)
    (hp : ¬ P (p.locationFrom t.workingDirectory)) : t'.entryAt? p = some e := by
  obtain ⟨l, hl, he⟩ := entryAt?_eq_some.mp he
  refine entryAt?_eq_some.mpr ⟨l, h.hasDirectories.locate hl, ?_⟩
  rcases h.entries l (locate_eq_ok hl ▸ hp) with hsame | ⟨-, hnone, -⟩
  · rw [hsame, he]
  · rw [he] at hnone
    cases hnone

theorem isFile (hfile : t.isFile p) (hp : ¬ P (p.locationFrom t.workingDirectory)) :
    t'.isFile p := by
  obtain ⟨content, he⟩ := isFile_iff.mp hfile
  exact isFile_iff.mpr ⟨content, h.entryAt? he hp⟩

theorem isDirectory (hp : t.isDirectory p) : t'.isDirectory p := by
  obtain ⟨l, hl, hdir⟩ := entryAt?_eq_some.mp (isDirectory_iff.mp hp)
  exact isDirectory_iff.mpr
    (entryAt?_eq_some.mpr ⟨l, h.hasDirectories.locate hl, h.directories l hdir⟩)

theorem readsAlike {content : ByteArray} (hread : t.read p = .ok content)
    (hp : ¬ P (p.locationFrom t.workingDirectory)) : ReadsAlike t t' p := by
  have hread' := read_eq_ok_iff.mpr (h.entryAt? (read_eq_ok_iff.mp hread) hp)
  intro content'
  rw [hread, hread']

/-- A new directory has no files in it, so no file is found where there was none. -/
theorem readsAlike_child (ht : t.WellFormed) (hl : t.locate d = .ok l) (hname : IsName name)
    (hP : ¬ P (l ++ [name])) : ReadsAlike t t' (d.child name) := by
  intro content
  rw [read_eq_ok_iff, read_eq_ok_iff, entryAt?_child (h.hasDirectories.locate hl) hname,
    entryAt?_child hl hname]
  constructor
  · rintro ⟨-, hadmits, hsize, he⟩
    rcases h.entries _ hP with hsame | ⟨-, -, hnew⟩
    · rw [hsame] at he
      exact ⟨(ht.parent l name (by rw [he]; rfl)).1, hadmits, hsize, he⟩
    · rw [hnew] at he
      cases he
  · rintro ⟨hdir, hadmits, hsize, he⟩
    refine ⟨h.directories l hdir, hadmits, hsize, ?_⟩
    rcases h.entries _ hP with hsame | ⟨-, hnone, -⟩
    · rw [hsame, he]
    · rw [he] at hnone
      cases hnone

theorem entryAt?_child_eq (hl : t.locate d = .ok l) (hdir : t.entry? l = some .directory)
    (hname : IsName name) (hP : ¬ P (l ++ [name])) (hD : ¬ D (l ++ [name])) :
    t'.entryAt? (d.child name) = t.entryAt? (d.child name) := by
  have hsame : t'.entry? (l ++ [name]) = t.entry? (l ++ [name]) :=
    (h.entries _ hP).resolve_right fun hnew ↦ hD hnew.1
  refine Option.ext fun e ↦ ?_
  rw [entryAt?_child (h.hasDirectories.locate hl) hname, entryAt?_child hl hname, hsame,
    iff_true_intro hdir, iff_true_intro (h.directories l hdir)]

/-- What is gathered from a directory is as before, if the names of new directories add nothing. -/
theorem filterMap_namesIn {β : Type} (ht : t.WellFormed) (hP : ∀ name, ¬ P (l ++ [name]))
    {f g : String → Option β} (hold : ∀ name ∈ t.namesIn l, IsName name → g name = f name)
    (hnew : ∀ name ∈ t'.namesIn l, IsName name → t.entry? (l ++ [name]) = none → g name = none) :
    (t'.namesIn l).filterMap g = (t.namesIn l).filterMap f := by
  have hkept : (t'.namesIn l).filter (fun name ↦ (t.entry? (l ++ [name])).isSome) = t.namesIn l := by
    refine filter_names (nodup_namesIn ht.nodup l) (nodup_namesIn (h.wellFormed ht).nodup l)
      (pairwise_namesIn t l) (pairwise_namesIn t' l) fun name ↦ ?_
    rw [mem_namesIn, mem_namesIn, and_iff_right_of_imp]
    intro hsome
    rcases h.entries _ (hP name) with hsame | ⟨-, hnone, -⟩
    · rwa [hsame]
    · rw [hnone] at hsome
      cases hsome
  rw [← hkept, List.filterMap_filter]
  apply List.filterMap_congr
  intro name hname
  have hisName := ((h.wellFormed ht).parent l name (mem_namesIn.mp hname)).2
  split
  · rename_i hsome
    exact hold name (mem_namesIn.mpr hsome) hisName
  · rename_i hnone
    exact hnew name hname hisName (by simpa using hnone)

end Extends

end FileTree

end HookPatch
