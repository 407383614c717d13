import HookPatch.Proofs.FileTree.Directories
import HookPatch.Run.Phases
import Mathlib.Data.List.DropRight

namespace HookPatch

theorem trimLineEnds_idem (s : List Char) :
    Text.trimLineEnds (Text.trimLineEnds s) = Text.trimLineEnds s := by
  simp only [Text.trimLineEnds, List.reverse_reverse]
  rw [List.dropWhile_idempotent]

namespace Fingerprint

def trimmed (f : Fingerprint) : Fingerprint :=
  { text := String.ofList (Text.trimLineEnds f.text.toList) }

theorem trimmed_trimmed (f : Fingerprint) : f.trimmed.trimmed = f.trimmed := by
  simp only [trimmed, String.toList_ofList, trimLineEnds_idem]

/-- Whether there is no other stored fingerprint than `f`. -/
def OnlyStored (t : FileTree) (path : Path) (f : Fingerprint) : Prop :=
  ∀ g, load t path = .ok (some g) → g = f

instance (t : FileTree) (path : Path) (f : Fingerprint) : Decidable (OnlyStored t path f) :=
  match h : load t path with
  | .ok (some g) => decidable_of_iff (g = f) (by simp [OnlyStored, h])
  | .ok none => isTrue (by simp [OnlyStored, h])
  | .error _ => isTrue (by simp [OnlyStored, h])

variable {t t' : FileTree} {path : Path} {f g : Fingerprint}

theorem load_eq_some_iff : load t path = .ok (some f) ↔
    ∃ content text, t.entryAt? path = some (.file content) ∧ String.fromUTF8? content = some text ∧
      f = trimmed { text } := by
  constructor
  · intro h
    rw [load] at h
    split at h
    · split at h
      · cases h
      · rename_i text htext
        cases h
        obtain ⟨content, hread, htext⟩ := FileTree.readText_eq_ok_iff.mp htext
        exact ⟨content, text, FileTree.read_eq_ok_iff.mp hread, htext, rfl⟩
    · cases h
  · rintro ⟨content, text, hentry, htext, rfl⟩
    have hexists := FileTree.existsAt_iff.mpr ⟨_, hentry⟩
    have hread := FileTree.readText_eq_ok_iff.mpr ⟨content, FileTree.read_eq_ok_iff.mpr hentry, htext⟩
    rw [load, if_pos hexists, hread]
    rfl

theorem load_congr (h : t'.entryAt? path = t.entryAt? path) :
    load t' path = .ok (some f) ↔ load t path = .ok (some f) := by
  rw [load_eq_some_iff, load_eq_some_iff, h]

theorem trimmed_of_load (h : load t path = .ok (some f)) : f.trimmed = f := by
  obtain ⟨content, text, -, -, rfl⟩ := load_eq_some_iff.mp h
  exact trimmed_trimmed _

theorem load_ne_some (h : ¬ t.isFile path) : load t path ≠ .ok (some f) := by
  intro hload
  obtain ⟨content, text, he, -⟩ := load_eq_some_iff.mp hload
  exact h (FileTree.isFile_iff.mpr ⟨content, he⟩)

theorem save_eq (f : Fingerprint) (path : Path) (t : FileTree) : f.save path t =
    match t.makePath (path.parent?.getD ⟨""⟩) with
    | (t, .error _) => .error (.inaccessible (path.parent?.getD ⟨""⟩)) t
    | (t, .ok _) =>
      match t.writeText path f.text with
      | .error _ => .error (.inaccessible path) t
      | .ok t => .ok () t := (rfl)

theorem save_eq_ok_iff : f.save path t = .ok () t' ↔
    ∃ t₁, t.makePath (path.parent?.getD ⟨""⟩) = (t₁, .ok ()) ∧
      t₁.write path f.text.toUTF8 = .ok t' := by
  rw [save_eq]
  cases t.makePath (path.parent?.getD ⟨""⟩) with
  | mk t₁ result =>
    cases result with
    | error fault => simp
    | ok _ =>
      change _ ↔ ∃ t₂ : FileTree, _ ∧ t₂.writeText path f.text = Except.ok t'
      cases hwrite : t₁.writeText path f.text <;> simp [hwrite]

theorem save_cases (f : Fingerprint) (path : Path) (t : FileTree) :
    (∃ e t', f.save path t = .error e t' ∧ t.Grows t' ∧ ¬ t'.isFile path) ∨
    ∃ t₁ t', f.save path t = .ok () t' ∧ t.Grows t₁ ∧
      t₁.write path f.text.toUTF8 = .ok t' := by
  have hgrows := FileTree.grows_makePath (t := t) (path.parent?.getD ⟨""⟩)
  cases hmake : t.makePath (path.parent?.getD ⟨""⟩) with
  | mk t₁ result =>
    rw [hmake] at hgrows
    cases result with
    | error fault =>
      have herror : f.save path t = .error (.inaccessible (path.parent?.getD ⟨""⟩)) t₁ := by
        rw [save_eq, hmake]
      refine .inl ⟨_, t₁, herror, hgrows, fun hfile ↦ ?_⟩
      obtain ⟨content, he⟩ := FileTree.isFile_iff.mp hfile
      have hexists := FileTree.existsAt_iff.mpr ⟨_, he⟩
      cases hparent : path.parent? with
      | none =>
        rw [hparent] at hmake
        cases hmake
      | some parent =>
        rw [hparent, Option.getD_some] at hmake
        refine FileTree.not_isDirectory_of_makePath hmake
          (FileTree.isDirectory_parent hparent (fun hempty ↦ ?_) hexists)
        rw [FileTree.makePath, hempty] at hmake
        cases hmake
    | ok _ =>
      cases hwrite : t₁.writeText path f.text with
      | error fault =>
        refine .inl ⟨.inaccessible path, t₁, by simp only [save_eq, hmake, hwrite], hgrows, ?_⟩
        intro hfile
        obtain ⟨t', ht'⟩ := FileTree.exists_write hfile f.text.toUTF8
        rw [FileTree.writeText, ht'] at hwrite
        cases hwrite
      | ok t' => exact .inr ⟨t₁, t', by simp only [save_eq, hmake, hwrite], hgrows, hwrite⟩

theorem load_save (h : f.save path t = .ok () t') : load t' path = .ok (some f.trimmed) := by
  rcases save_cases f path t with ⟨e, t₁, heq, -⟩ | ⟨t₁, t₂, heq, -, hwrite⟩
  · rw [h] at heq; cases heq
  · rw [h] at heq
    cases heq
    exact load_eq_some_iff.mpr ⟨_, f.text, FileTree.entryAt?_write_self hwrite,
      fromUTF8?_toUTF8 f.text, rfl⟩

/-- A fingerprint can only fail to be stored where there is no file. -/
theorem not_isFile_of_save {e : RunError} (h : f.save path t = .error e t') :
    ¬ t.isFile path ∧ ¬ t'.isFile path := by
  rcases save_cases f path t with ⟨e', t₁, heq, hgrows, hnot⟩ | ⟨t₁, t₂, heq, -⟩
  · rw [h] at heq
    cases heq
    refine ⟨fun hfile ↦ hnot ?_, hnot⟩
    obtain ⟨content, he⟩ := FileTree.isFile_iff.mp hfile
    exact FileTree.isFile_iff.mpr ⟨content, hgrows.entryAt? he⟩
  · rw [h] at heq
    cases heq

theorem existsAt_save (h : f.save path t = .ok () t') {q : Path}
    (hapart : ∀ d, q.locationFrom d ≠ path.locationFrom d) (hq : t.existsAt q) : t'.existsAt q := by
  rcases save_cases f path t with ⟨e, t₁, heq, -⟩ | ⟨t₁, t₂, heq, hgrows, hwrite⟩
  · rw [h] at heq; cases heq
  · rw [h] at heq
    cases heq
    obtain ⟨e, he⟩ := FileTree.existsAt_iff.mp hq
    refine FileTree.existsAt_iff.mpr ⟨e, ?_⟩
    rw [FileTree.entryAt?_write_other hwrite (hapart _), hgrows.entryAt? he]

theorem forget_cases (path : Path) (t : FileTree) :
    ∃ t', (forget path t = .ok () t' ∨ ∃ e, forget path t = .error e t') ∧ ¬ t'.isFile path := by
  cases hremove : t.removeFile path with
  | ok t' =>
    refine ⟨t', .inl (by rw [forget, hremove]), fun hfile ↦ ?_⟩
    obtain ⟨content, he⟩ := FileTree.isFile_iff.mp hfile
    rw [FileTree.entryAt?_removeFile hremove] at he
    cases he
  | error fault =>
    refine ⟨t, ?_, FileTree.not_isFile_of_removeFile hremove⟩
    rw [forget, hremove]
    cases fault <;> simp

end Fingerprint

end HookPatch
