import HookPatch.Mod.Environment
import HookPatch.Proofs.FileTree.Extension
import HookPatch.Proofs.Mod.Discovery

namespace HookPatch

open FileTree

def Mod.LivesIn (t : FileTree) (root : Location) (m : Mod) : Prop :=
  ∃ l, t.locate m.directory = .ok l ∧ t.entry? l = some .directory ∧ root <+: l

theorem LoadOrder.livesIn_of_mem {t : FileTree} {path : Path} {order : LoadOrder} {m : Mod}
    {ws : List Warning} (ht : t.WellFormed) (horder : value? (LoadOrder.load t path) ws = some order)
    (hm : m ∈ order.mods) : ∃ root, t.locate path = .ok root ∧ t.entry? root = some .directory ∧
      m.LivesIn t root := by
  obtain ⟨available, allowed, denied, hfound, -, -, rfl⟩ := LoadOrder.value?_load.mp horder
  have hmem := LoadOrder.mem_available hm
  by_cases hpath : t.existsAt path
  · obtain ⟨names, hnames, rfl⟩ := (Mod.value?_findAll hpath).mp hfound
    obtain ⟨root, hroot, hdir, rfl⟩ := list_eq_ok_iff.mp hnames
    obtain ⟨name, hname, hdirectory, hisDirectory⟩ := Mod.mem_found hmem
    have hisName : IsName name := (ht.parent root name (mem_namesIn.mp hname)).2
    rw [isDirectory_iff, hdirectory] at hisDirectory
    obtain ⟨-, hadmits, hsize, he⟩ := (entryAt?_child hroot hisName).mp hisDirectory
    refine ⟨root, hroot, hdir, root ++ [name], ?_, he, List.prefix_append root [name]⟩
    rw [hdirectory]
    exact (locate_child hroot hisName).mpr ⟨hdir, hadmits, hsize, rfl⟩
  · rw [Mod.findAll_eq_nil hpath hfound] at hmem
    cases hmem

theorem Mod.scriptPaths_of_locate {t : FileTree} {m : Mod} {l : Location} (ht : t.WellFormed)
    (hl : t.locate m.scriptDirectory = .ok l) :
    m.scriptPaths t = .ok ((t.namesIn l).filterMap fun name ↦
      Option.guard (fun p ↦ t.isFile p && p.extension? = some scriptExtension)
        (m.scriptDirectory.child name)) := by
  rw [scriptPaths]
  split
  · rename_i hdir
    obtain ⟨l', hl', hdir⟩ := entryAt?_eq_some.mp (isDirectory_iff.mp hdir)
    obtain rfl : l = l' := Except.ok.inj (hl.symm.trans hl')
    have hnames : t.list m.scriptDirectory = .ok (t.namesIn l) :=
      list_eq_ok_iff.mpr ⟨l, hl, hdir, rfl⟩
    simp only [hnames, ← List.filterMap_eq_filter, List.filterMap_map]
    rfl
  · rename_i hdir
    have hnone : t.namesIn l = [] := by
      rw [List.eq_nil_iff_forall_not_mem]
      intro name hname
      apply hdir
      rw [isDirectory_iff, entryAt?_eq_some]
      exact ⟨l, hl, (ht.parent l name (mem_namesIn.mp hname)).1⟩
    rw [hnone]
    rfl

theorem Mod.mem_scriptPaths {t : FileTree} {m : Mod} {root : Location} (ht : t.WellFormed)
    (hm : m.LivesIn t root) {paths : List Path} (hpaths : m.scriptPaths t = .ok paths) {p : Path}
    (hp : p ∈ paths) : ∃ l name, t.locate m.scriptDirectory = .ok l ∧ root <+: l ∧ IsName name ∧
      p = m.scriptDirectory.child name := by
  obtain ⟨k, hk, -, hroot⟩ := hm
  rw [scriptPaths] at hpaths
  split at hpaths
  · rename_i hdir
    obtain ⟨l, hl, hdir⟩ := entryAt?_eq_some.mp (isDirectory_iff.mp hdir)
    have hnames : t.list m.scriptDirectory = .ok (t.namesIn l) :=
      list_eq_ok_iff.mpr ⟨l, hl, hdir, rfl⟩
    simp only [hnames, Except.ok.injEq] at hpaths
    obtain ⟨-, -, -, rfl⟩ := (locate_child hk (by decide : IsName "scripts")).mp hl
    rw [← hpaths, List.mem_filter, List.mem_map] at hp
    obtain ⟨⟨name, hname, rfl⟩, -⟩ := hp
    have hisName : IsName name := (ht.parent _ name (mem_namesIn.mp hname)).2
    exact ⟨_, name, hl, hroot.trans (List.prefix_append k _), hisName, rfl⟩
  · cases hpaths
    cases hp

/-- Another tree extends this one outside of the directory that `path` leads to, as far as files go. -/
structure ExtendsOutside (P D : Location → Prop) (path : Path) (root : Location) (t t' : FileTree) :
    Prop where
  extension : Extends P D t t'
  wellFormed : t.WellFormed
  locate : t.locate path = .ok root
  directory : t.entry? root = some .directory
  outside : ∀ l, root <+: l → ¬ P l

namespace ExtendsOutside

variable {P D : Location → Prop} {path d : Path} {root l : Location} {t t' : FileTree}
  {name : String} (h : ExtendsOutside P D path root t t')

include h

theorem readsAlike_child (hl : t.locate d = .ok l) (hroot : root <+: l) (hname : IsName name) :
    ReadsAlike t t' (d.child name) := by
  apply h.extension.readsAlike_child h.wellFormed hl hname
  exact h.outside _ (hroot.trans (List.prefix_append l [name]))

theorem inDirectory_eq (hl : t.locate d = .ok l) (hroot : root <+: l) :
    Mod.inDirectory t' d = Mod.inDirectory t d := by
  have halike : ∀ q ∈ Mod.metadataNames.map d.child, ReadsAlike t t' q := by
    intro q hq
    obtain ⟨name, hname, rfl⟩ := List.mem_map.mp hq
    apply h.readsAlike_child hl hroot
    rcases List.mem_cons.mp hname with rfl | hname
    · decide
    · rw [List.mem_singleton.mp hname]
      decide
  have hfile : Mod.metadataFile? t' d = Mod.metadataFile? t d := by
    rw [Mod.metadataFile?, Mod.metadataFile?, ← List.head?_filter, ← List.head?_filter]
    exact congrArg List.head? (List.filter_congr fun q hq ↦ (halike q hq).isFile_eq)
  rw [Mod.inDirectory_eq_match, Mod.inDirectory_eq_match, hfile]
  cases hfound : Mod.metadataFile? t d with
  | none => rfl
  | some q =>
    have hq := halike q (List.mem_of_find?_eq_some hfound)
    have hload : Metadata.load t' q = Metadata.load t q := by
      simp only [Metadata.load, hq.loadDocument_eq]
    simp only [hload]

omit h in
theorem inDirectory?_eq_none (hl : t.locate d = .ok l) (hdir : t.entry? l ≠ some .directory) :
    Mod.inDirectory? t d = none := by
  have hnone : Mod.metadataFile? t d = none := by
    rw [Mod.metadataFile?, List.find?_eq_none]
    intro q hq hfile
    obtain ⟨name, hname, rfl⟩ := List.mem_map.mp hq
    obtain ⟨content, he⟩ := isFile_iff.mp hfile
    have hisName : IsName name := by
      rcases List.mem_cons.mp hname with rfl | hname
      · decide
      · rw [List.mem_singleton.mp hname]
        decide
    exact hdir ((entryAt?_child hl hisName).mp he).1
  rw [Mod.inDirectory?, Mod.inDirectory_eq_match, hnone]
  rfl

theorem found_eq : Mod.found t' path (t'.namesIn root) = Mod.found t path (t.namesIn root) := by
  have hdirs := h.extension.hasDirectories.locate h.locate
  apply h.extension.filterMap_namesIn h.wellFormed fun name ↦ h.outside _ (List.prefix_append _ _)
  · intro name hname hisName
    by_cases hdir : t.isDirectory (path.child name)
    · obtain ⟨hroot, hadmits, hsize, -⟩ :=
        (entryAt?_child h.locate hisName).mp (isDirectory_iff.mp hdir)
      have hl : t.locate (path.child name) = .ok (root ++ [name]) :=
        (locate_child h.locate hisName).mpr ⟨hroot, hadmits, hsize, rfl⟩
      rw [if_pos hdir, if_pos (h.extension.isDirectory hdir), Mod.inDirectory?,
        h.inDirectory_eq hl (List.prefix_append _ _), ← Mod.inDirectory?]
    · have hdir' : ¬ t'.isDirectory (path.child name) := by
        intro hdir'
        obtain ⟨-, hadmits, hsize, he⟩ := (entryAt?_child hdirs hisName).mp (isDirectory_iff.mp hdir')
        apply hdir
        refine isDirectory_iff.mpr ((entryAt?_child h.locate hisName).mpr
          ⟨h.directory, hadmits, hsize, ?_⟩)
        rcases h.extension.entries _ (h.outside _ (List.prefix_append root [name])) with
          hsame | ⟨-, hnone, -⟩
        · rw [← hsame, he]
        · rw [mem_namesIn, hnone] at hname
          cases hname
      rw [if_neg hdir, if_neg hdir']
  · intro name hname hisName hnone
    split
    · rename_i hdir
      obtain ⟨-, hadmits, hsize, -⟩ := (entryAt?_child hdirs hisName).mp (isDirectory_iff.mp hdir)
      have hl : t.locate (path.child name) = .ok (root ++ [name]) :=
        (locate_child h.locate hisName).mpr ⟨h.directory, hadmits, hsize, rfl⟩
      rw [Mod.inDirectory?, h.inDirectory_eq hl (List.prefix_append _ _), ← Mod.inDirectory?]
      exact inDirectory?_eq_none hl (by simp [hnone])
    · rfl

theorem readList_eq (hname : IsName name) (hD : ¬ D (root ++ [name])) :
    readList t' (path.child name) = readList t (path.child name) := by
  have hP : ¬ P (root ++ [name]) := h.outside _ (List.prefix_append root [name])
  have hexists : t'.existsAt (path.child name) = t.existsAt (path.child name) := by
    rw [Bool.eq_iff_iff, existsAt_iff, existsAt_iff,
      h.extension.entryAt?_child_eq h.locate h.directory hname hP hD]
  have halike := h.readsAlike_child h.locate (List.prefix_refl root) hname
  rw [readList, readList, hexists]
  rcases halike.readText_cases with ⟨text, ht, ht'⟩ | ⟨fault, fault', ht, ht'⟩
  · rw [ht, ht']
  · rw [ht, ht']

/-- The load order is as before, unless a directory has been made where a list is looked for. -/
theorem value?_load (hlists : ∀ name ∈ [allowListName, denyListName], ¬ D (root ++ [name]))
    {order : LoadOrder} {ws : List Warning} (ws' : List Warning)
    (horder : value? (LoadOrder.load t path) ws = some order) :
    value? (LoadOrder.load t' path) ws' = some order := by
  have hallow : readList t' (path.child allowListName) = readList t (path.child allowListName) :=
    h.readList_eq (by decide) (hlists _ (by simp))
  have hdeny : readList t' (path.child denyListName) = readList t (path.child denyListName) :=
    h.readList_eq (by decide) (hlists _ (by simp))
  have hpath : t.existsAt path :=
    existsAt_iff.mpr ⟨_, entryAt?_eq_some.mpr ⟨root, h.locate, h.directory⟩⟩
  have hlocate' := h.extension.hasDirectories.locate h.locate
  have hdirectory' := h.extension.directories root h.directory
  have hpath' : t'.existsAt path :=
    existsAt_iff.mpr ⟨_, entryAt?_eq_some.mpr ⟨root, hlocate', hdirectory'⟩⟩
  obtain ⟨available, allowed, denied, hfound, hallowed, hdenied, rfl⟩ :=
    LoadOrder.value?_load.mp horder
  obtain ⟨names, hnames, rfl⟩ := (Mod.value?_findAll hpath).mp hfound
  obtain ⟨l, hl, -, rfl⟩ := list_eq_ok_iff.mp hnames
  obtain rfl : root = l := Except.ok.inj (h.locate.symm.trans hl)
  refine LoadOrder.value?_load.mpr ⟨_, allowed, denied, ?_, ?_, ?_, rfl⟩
  · refine (Mod.value?_findAll hpath').mpr ⟨t'.namesIn root, ?_, h.found_eq.symm⟩
    exact list_eq_ok_iff.mpr ⟨root, hlocate', hdirectory', rfl⟩
  · rw [hallow, hallowed]
  · rw [hdeny, hdenied]

theorem scriptPaths_eq {m : Mod} (hm : m.LivesIn t root) : m.scriptPaths t' = m.scriptPaths t := by
  obtain ⟨l, hl, hdir, hroot⟩ := hm
  have hscripts : IsName "scripts" := by decide
  have hl' := h.extension.hasDirectories.locate hl
  by_cases hadmits : admits m.scriptDirectory
  · have hlocate : t.locate m.scriptDirectory = .ok (l ++ ["scripts"]) :=
      (locate_child hl hscripts).mpr ⟨hdir, hadmits, by decide, rfl⟩
    have hbelow : root <+: l ++ ["scripts"] := hroot.trans (List.prefix_append l _)
    rw [Mod.scriptPaths_of_locate (h.extension.wellFormed h.wellFormed)
      (h.extension.hasDirectories.locate hlocate), Mod.scriptPaths_of_locate h.wellFormed hlocate]
    congr 1
    apply h.extension.filterMap_namesIn h.wellFormed
    · intro name
      exact h.outside _ (hbelow.trans (List.prefix_append _ _))
    · intro name _ hname
      rw [Option.guard, Option.guard, (h.readsAlike_child hlocate hbelow hname).isFile_eq]
    · intro name _ hname hnone
      have hfile : ¬ t'.isFile (m.scriptDirectory.child name) := by
        rw [(h.readsAlike_child hlocate hbelow hname).isFile_eq, isFile_iff]
        rintro ⟨content, he⟩
        rw [((entryAt?_child hlocate hname).mp he).2.2.2] at hnone
        cases hnone
      simp [Option.guard, hfile]
  · have hnot (t : FileTree) (hl : t.locate m.directory = .ok l) :
        ¬ t.isDirectory m.scriptDirectory := by
      rw [isDirectory_iff, Mod.scriptDirectory, entryAt?_child hl hscripts]
      intro h
      exact hadmits h.2.1
    rw [Mod.scriptPaths, Mod.scriptPaths, if_neg (hnot t' hl'), if_neg (hnot t hl)]

end ExtendsOutside

end HookPatch
