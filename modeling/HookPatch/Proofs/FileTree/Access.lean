import HookPatch.FileTree.Basic
import HookPatch.Proofs.Outcomes

namespace HookPatch

theorem fromUTF8?_toUTF8 (s : String) : String.fromUTF8? s.toUTF8 = some s := by
  rw [String.toUTF8_eq_toByteArray, String.fromUTF8?, dif_pos s.isValidUTF8]
  rfl

namespace Path

def walked (l : Location) : List Step → Location
  | [] => l
  | .here :: rest => walked l rest
  | .up :: rest => walked l.dropLast rest
  | .into name :: rest => walked (l ++ [name]) rest

/-- Where a path leads from a working directory if every directory on the way is there. -/
def locationFrom (p : Path) (workingDirectory : Location) : Location :=
  walked (if p.isAbsolute then [] else workingDirectory) p.steps

theorem locationFrom_of_steps {p : Path} {names : List String} (hrelative : ¬ p.isAbsolute)
    (hsteps : p.steps = .here :: names.map .into) (d : Location) : p.locationFrom d = d ++ names := by
  rw [locationFrom, if_neg hrelative, hsteps, walked]
  clear hsteps
  induction names generalizing d with
  | nil => simp [walked]
  | cons name names ih => simp [walked, ih]

end Path

namespace FileTree

def entryAt? (t : FileTree) (p : Path) : Option Entry := (t.entryAt p).toOption

/-- The content of a file, empty if it cannot be read. -/
def content (t : FileTree) (p : Path) : ByteArray := (t.read p).toOption.getD .empty

theorem content_eq {t : FileTree} {p : Path} {content : ByteArray} (h : t.read p = .ok content) :
    t.content p = content := by
  rw [FileTree.content, h]
  rfl

structure HasDirectories (t t' : FileTree) : Prop where
  workingDirectory : t'.workingDirectory = t.workingDirectory
  directories : ∀ l, t.entry? l = some .directory → t'.entry? l = some .directory

variable {t t' : FileTree} {p q : Path} {l m : Location}

theorem walk_cons_eq_ok {s : Path.Step} {rest : List Path.Step} :
    t.walk l (s :: rest) = .ok m ↔ t.entry? l = some .directory ∧
      (∀ name, s = .into name → name.utf8ByteSize ≤ maxName) ∧
      t.walk (Path.walked l [s]) rest = .ok m := by
  cases s with
  | here => simp only [walk, Path.walked]; split <;> simp_all
  | up => simp only [walk, Path.walked]; split <;> simp_all
  | into name =>
    simp only [walk, Path.walked, Path.Step.into.injEq, forall_eq']
    split
    · simp_all
    · simp_all
    · split
      · simp_all
      · rename_i hname
        simp [hname]

theorem walked_cons (l : Location) (s : Path.Step) (rest : List Path.Step) :
    Path.walked l (s :: rest) = Path.walked (Path.walked l [s]) rest := by
  cases s <;> rfl

theorem walk_eq_ok {steps : List Path.Step} (h : t.walk l steps = .ok m) :
    m = Path.walked l steps := by
  induction steps generalizing l with
  | nil => cases h; rfl
  | cons s rest ih =>
    rw [walked_cons]
    exact ih (walk_cons_eq_ok.mp h).2.2

theorem walk_mono (hdirs : ∀ l, t.entry? l = some .directory → t'.entry? l = some .directory)
    {steps : List Path.Step} (h : t.walk l steps = .ok m) : t'.walk l steps = .ok m := by
  induction steps generalizing l with
  | nil => exact h
  | cons s rest ih =>
    obtain ⟨hl, hname, hrest⟩ := walk_cons_eq_ok.mp h
    exact walk_cons_eq_ok.mpr ⟨hdirs l hl, hname, ih hrest⟩

theorem walk_append_eq_ok {taken left : List Path.Step} : t.walk l (taken ++ left) = .ok m ↔
    ∃ k, t.walk l taken = .ok k ∧ t.walk k left = .ok m := by
  induction taken generalizing l with
  | nil => simp [walk]
  | cons s rest ih =>
    rw [List.cons_append, walk_cons_eq_ok]
    simp only [walk_cons_eq_ok, ih, and_assoc, exists_and_left]

theorem follow_eq_ok_iff {steps : List Path.Step} : t.follow p steps = .ok l ↔
    p.text ≠ "" ∧ admits p ∧
      t.walk (if p.isAbsolute then [] else t.workingDirectory) steps = .ok l := by
  rw [follow]
  by_cases htext : p.text = ""
  · simp [htext]
  · by_cases hadmits : admits p <;> simp [htext, hadmits]

theorem locate_eq_ok_iff : t.locate p = .ok l ↔ p.text ≠ "" ∧ admits p ∧
    t.walk (if p.isAbsolute then [] else t.workingDirectory) p.steps = .ok l :=
  follow_eq_ok_iff

theorem locate_eq_ok (h : t.locate p = .ok l) : l = p.locationFrom t.workingDirectory :=
  walk_eq_ok (locate_eq_ok_iff.mp h).2.2

theorem HasDirectories.locate (h : HasDirectories t t') (hl : t.locate p = .ok l) :
    t'.locate p = .ok l := by
  obtain ⟨htext, hadmits, hwalk⟩ := locate_eq_ok_iff.mp hl
  refine locate_eq_ok_iff.mpr ⟨htext, hadmits, ?_⟩
  rw [h.workingDirectory]
  exact walk_mono h.directories hwalk

theorem entryAt?_eq_some {e : Entry} :
    t.entryAt? p = some e ↔ ∃ l, t.locate p = .ok l ∧ t.entry? l = some e := by
  rw [entryAt?, entryAt]
  cases hl : t.locate p with
  | error fault => simp [bind, Except.bind, Except.toOption]
  | ok l =>
    cases he : t.entry? l with
    | none => simp [bind, Except.bind, Except.toOption, he]
    | some e' => simp [bind, Except.bind, Except.toOption, he, pure, Except.pure]

/-- Two trees with the same directories differ at a path only if they differ at its location. -/
theorem entryAt?_congr (h : HasDirectories t t') (h' : HasDirectories t' t)
    (hl : t'.entry? (p.locationFrom t.workingDirectory) = t.entry? (p.locationFrom t.workingDirectory)) :
    t'.entryAt? p = t.entryAt? p := by
  refine Option.ext fun e ↦ ?_
  rw [entryAt?_eq_some, entryAt?_eq_some]
  constructor
  · rintro ⟨l, hlocate, he⟩
    have hlocate := h'.locate hlocate
    exact ⟨l, hlocate, by rw [← he, locate_eq_ok hlocate, hl]⟩
  · rintro ⟨l, hlocate, he⟩
    exact ⟨l, h.locate hlocate, by rw [← he, locate_eq_ok hlocate, hl]⟩

theorem existsAt_iff : t.existsAt p ↔ ∃ e, t.entryAt? p = some e := by
  rw [existsAt, entryAt?]
  cases t.entryAt p <;> simp [Except.isOk, Except.toBool, Except.toOption]

theorem isFile_iff : t.isFile p ↔ ∃ content, t.entryAt? p = some (.file content) := by
  rw [isFile, entryAt?]
  cases t.entryAt p with
  | error fault => simp [Except.toOption]
  | ok e => cases e <;> simp [Except.toOption]

theorem existsAt_of_isFile (h : t.isFile p) : t.existsAt p := by
  obtain ⟨content, he⟩ := isFile_iff.mp h
  exact existsAt_iff.mpr ⟨_, he⟩

theorem isDirectory_iff : t.isDirectory p ↔ t.entryAt? p = some .directory := by
  rw [isDirectory, entryAt?]
  cases t.entryAt p with
  | error fault => simp [Except.toOption]
  | ok e => cases e <;> simp [Except.toOption]

theorem read_eq_ok_iff {content : ByteArray} :
    t.read p = .ok content ↔ t.entryAt? p = some (.file content) := by
  rw [read, entryAt?]
  cases t.entryAt p with
  | error fault => simp [bind, Except.bind, Except.toOption]
  | ok e => cases e <;> simp [bind, Except.bind, Except.toOption, pure, Except.pure]

theorem isFile_of_read {content : ByteArray} (h : t.read p = .ok content) : t.isFile p :=
  isFile_iff.mpr ⟨content, read_eq_ok_iff.mp h⟩

theorem read_content (h : t.isFile p) : t.read p = .ok (t.content p) := by
  obtain ⟨content, hentry⟩ := isFile_iff.mp h
  have hread := read_eq_ok_iff.mpr hentry
  rw [content_eq hread, hread]

theorem readText_eq_ok_iff {text : String} : t.readText p = .ok text ↔
    ∃ content, t.read p = .ok content ∧ String.fromUTF8? content = some text := by
  rw [readText, except_bind_eq_ok_iff]
  refine exists_congr fun content ↦ and_congr_right fun _ ↦ ?_
  cases String.fromUTF8? content <;> simp [pure, Except.pure]

section Put

theorem lookup_filter_location {α : Type} (entries : List (Location × α)) (keep : Location → Bool)
    (m : Location) :
    (entries.filter fun e ↦ keep e.1).lookup m = if keep m then entries.lookup m else none := by
  induction entries with
  | nil => simp
  | cons entry rest ih =>
    obtain ⟨key, a⟩ := entry
    by_cases hm : m = key
    · subst hm
      by_cases hkeep : keep m
      · rw [List.filter_cons_of_pos (by simpa using hkeep)]
        simp [hkeep]
      · rw [List.filter_cons_of_neg (by simpa using hkeep), ih, if_neg hkeep, if_neg hkeep]
    · rw [List.filter_cons]
      split
      · rw [List.lookup_cons, List.lookup_cons, beq_false_of_ne hm, ih]
      · rw [List.lookup_cons, beq_false_of_ne hm, ih]

theorem entry?_eq : t.entry? l = if l.isEmpty then some .directory else t.entries.lookup l := rfl

theorem entry?_put (hl : l ≠ []) (e : Entry) (m : Location) :
    FileTree.entry? (t.put l e) m = if m = l then some e else t.entry? m := by
  rw [entry?_eq, entry?_eq, put]
  by_cases hm : m = l
  · subst hm
    simp [hl]
  · rw [if_neg hm]
    split
    · rfl
    · have hkeep := lookup_filter_location t.entries (· ≠ l) m
      rw [if_pos (by simpa using hm)] at hkeep
      rw [List.lookup_cons, beq_false_of_ne hm]
      exact hkeep

theorem ne_nil_of_not_directory (h : t.entry? l ≠ some .directory) : l ≠ [] := by
  rintro rfl
  exact h rfl

variable {e : Entry}

theorem hasDirectories_put (h : t.entry? l ≠ some .directory) : HasDirectories t (t.put l e) where
  workingDirectory := rfl
  directories m hm := by
    have hml : m ≠ l := fun hml ↦ h (hml ▸ hm)
    rw [entry?_put (ne_nil_of_not_directory h), if_neg hml, hm]

theorem hasDirectories_of_put {content : ByteArray} (h : t.entry? l ≠ some .directory) :
    HasDirectories (t.put l (.file content)) t where
  workingDirectory := rfl
  directories m hm := by
    rw [entry?_put (ne_nil_of_not_directory h)] at hm
    split at hm
    · cases hm
    · exact hm

end Put

section Write

variable {content : ByteArray}

theorem write_eq_ok_iff : t.write p content = .ok t' ↔
    ∃ l, t.locate p = .ok l ∧ t.entry? l ≠ some .directory ∧ t' = t.put l (.file content) := by
  rw [write]
  cases hl : t.locate p with
  | error fault => simp [bind, Except.bind]
  | ok l =>
    simp only [bind, Except.bind, Except.ok.injEq, exists_eq_left']
    cases he : t.entry? l with
    | none => simp [pure, Except.pure, eq_comm]
    | some e => cases e <;> simp [pure, Except.pure, eq_comm]

theorem entryAt?_write_self (h : t.write p content = .ok t') :
    t'.entryAt? p = some (.file content) := by
  obtain ⟨l, hl, hdir, rfl⟩ := write_eq_ok_iff.mp h
  refine entryAt?_eq_some.mpr ⟨l, (hasDirectories_put hdir).locate hl, ?_⟩
  rw [entry?_put (ne_nil_of_not_directory hdir), if_pos rfl]

theorem isFile_write (h : t.write p content = .ok t') (hq : t.isFile q) : t'.isFile q := by
  obtain ⟨l, hl, hdir, rfl⟩ := write_eq_ok_iff.mp h
  obtain ⟨old, hq⟩ := isFile_iff.mp hq
  obtain ⟨m, hm, he⟩ := entryAt?_eq_some.mp hq
  have hput := entry?_put (t := t) (ne_nil_of_not_directory hdir) (.file content) m
  refine isFile_iff.mpr ?_
  by_cases hml : m = l
  · rw [if_pos hml] at hput
    exact ⟨content, entryAt?_eq_some.mpr ⟨m, (hasDirectories_put hdir).locate hm, hput⟩⟩
  · rw [if_neg hml, he] at hput
    exact ⟨old, entryAt?_eq_some.mpr ⟨m, (hasDirectories_put hdir).locate hm, hput⟩⟩

theorem entryAt?_write_other (h : t.write p content = .ok t')
    (hne : q.locationFrom t.workingDirectory ≠ p.locationFrom t.workingDirectory) :
    t'.entryAt? q = t.entryAt? q := by
  obtain ⟨l, hl, hdir, rfl⟩ := write_eq_ok_iff.mp h
  refine entryAt?_congr (hasDirectories_put hdir) (hasDirectories_of_put hdir) ?_
  rw [entry?_put (ne_nil_of_not_directory hdir), if_neg (locate_eq_ok hl ▸ hne)]

theorem exists_write (h : t.isFile p) (content : ByteArray) : ∃ t', t.write p content = .ok t' := by
  obtain ⟨old, h⟩ := isFile_iff.mp h
  obtain ⟨l, hl, he⟩ := entryAt?_eq_some.mp h
  exact ⟨_, write_eq_ok_iff.mpr ⟨l, hl, by rw [he]; simp, rfl⟩⟩

end Write

section Remove

theorem entry?_erase_eq_some {e : Entry} (hl : l ≠ []) (h : FileTree.entry? (t.erase l) m = some e) :
    t.entry? m = some e ∧ m ≠ l := by
  rw [entry?_eq] at h ⊢
  split at h
  · rename_i hm
    rw [if_pos hm]
    exact ⟨h, fun hml ↦ hl (by simpa [hml] using hm)⟩
  · rename_i hm
    have hkeep := lookup_filter_location t.entries (fun k ↦ !l.isPrefixOf k) m
    rw [if_neg hm]
    rw [erase, hkeep] at h
    split at h
    · rename_i hnot
      refine ⟨h, ?_⟩
      rintro rfl
      simp [List.isPrefixOf_iff_prefix.mpr (List.prefix_refl m)] at hnot
    · cases h

theorem hasDirectories_of_erase (hl : l ≠ []) : HasDirectories (t.erase l) t where
  workingDirectory := rfl
  directories _ hm := (entry?_erase_eq_some hl hm).1

theorem removeFile_eq_ok_iff : t.removeFile p = .ok t' ↔
    ∃ l content, t.locate p = .ok l ∧ t.entry? l = some (.file content) ∧ t' = t.erase l := by
  rw [removeFile]
  cases hl : t.locate p with
  | error fault => simp [bind, Except.bind]
  | ok l =>
    simp only [bind, Except.bind, Except.ok.injEq]
    cases he : t.entry? l with
    | none => simp [he]
    | some e => cases e <;> simp [he, pure, Except.pure, eq_comm]

theorem entryAt?_removeFile (h : t.removeFile p = .ok t') : t'.entryAt? p = none := by
  obtain ⟨l, content, hl, he, rfl⟩ := removeFile_eq_ok_iff.mp h
  have hne := ne_nil_of_not_directory (t := t) (l := l) (by rw [he]; simp)
  rw [Option.eq_none_iff_forall_ne_some]
  intro e hfound
  obtain ⟨m, hm, he'⟩ := entryAt?_eq_some.mp hfound
  have hlm := (hasDirectories_of_erase hne).locate hm
  rw [hl, Except.ok.injEq] at hlm
  exact (entry?_erase_eq_some hne he').2 hlm.symm

theorem not_isFile_of_removeFile {fault : AccessFault} (h : t.removeFile p = .error fault) :
    ¬ t.isFile p := by
  rw [isFile_iff]
  rintro ⟨content, hfound⟩
  obtain ⟨l, hl, he⟩ := entryAt?_eq_some.mp hfound
  have hok := removeFile_eq_ok_iff.mpr ⟨l, content, hl, he, rfl⟩
  rw [h] at hok
  cases hok

end Remove

/-- A copy that fails has changed nothing, since what can be read can still be read when the target
has been emptied. -/
theorem copy_eq_error {fault : AccessFault} (h : t.copy p q = (t', .error fault)) : t' = t := by
  rw [copy] at h
  cases hread : t.read p with
  | error e => rw [hread] at h; cases h; rfl
  | ok content =>
    rw [hread] at h
    cases hopen : t.write q ByteArray.empty with
    | error e => rw [hopen] at h; cases h; rfl
    | ok opened =>
      have hsource : opened.isFile p := isFile_write hopen (isFile_of_read hread)
      have htarget : opened.isFile q := isFile_iff.mpr ⟨_, entryAt?_write_self hopen⟩
      obtain ⟨copied, hcopied⟩ := isFile_iff.mp hsource
      obtain ⟨done, hdone⟩ := exists_write htarget copied
      simp only [hopen, read_eq_ok_iff.mpr hcopied, Except.bind, hdone] at h
      cases h

end FileTree

end HookPatch
