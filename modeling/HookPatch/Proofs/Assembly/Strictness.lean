import HookPatch.Assembly.Source

namespace HookPatch.Assembly

def AssemblesTo (source : String) (body : List Instruction) : Prop :=
  ∀ image target, assemble .lenient image target source = .ok body

theorem AssemblesTo.unique {source : String} {body body' : List Instruction}
    (h : AssemblesTo source body) (h' : AssemblesTo source body') : body = body' :=
  Except.ok.inj ((h {} "").symm.trans (h' {} ""))

theorem assembleLine_lenient {strictness : Strictness} {image : Image} {target : String}
    {s : List Char} {i : Option Instruction} (h : assembleLine strictness image target s = .ok i)
    (image' : Image) (target' : String) : assembleLine .lenient image' target' s = .ok i := by
  simp only [assembleLine, Strictness.admits] at h ⊢
  split
  · rename_i hblank
    simpa only [hblank, if_true] using h
  · rename_i hblank
    rw [if_neg hblank] at h
    cases hread : readInstruction (Text.trim (beforeComment .code s)) with
    | error e => rw [hread] at h; cases h
    | ok j =>
      rw [hread] at h
      simp only [bind, Except.bind, pure, Except.pure] at h ⊢
      split at h
      · cases h
      · exact h

theorem assembleLines_lenient {strictness : Strictness} {image : Image} {target : String}
    {number : Nat} {done : List Instruction} {texts : List (List Char)} {body : List Instruction}
    (h : assembleLines strictness image target number done texts = .ok body)
    (image' : Image) (target' : String) :
    assembleLines .lenient image' target' number done texts = .ok body := by
  induction texts generalizing number done with
  | nil => exact h
  | cons s rest ih =>
    rw [assembleLines] at h ⊢
    cases hline : assembleLine strictness image target s with
    | error e => rw [hline] at h; cases h
    | ok i =>
      rw [hline] at h
      rw [assembleLine_lenient hline image' target']
      cases i with
      | none => exact ih h
      | some i => exact ih h

theorem assemblesTo_of_ok {strictness : Strictness} {image : Image} {target source : String}
    {body : List Instruction} (h : assemble strictness image target source = .ok body) :
    AssemblesTo source body :=
  fun image' target' ↦ assembleLines_lenient h image' target'

section Strict

variable {image : Image} {target : String}

/-- Whether an instruction of the unit `target` refers to that unit, to a name that the image has
taken, or to nothing. -/
def Knows (image : Image) (target : String) (i : Instruction) : Prop :=
  ∀ name ∈ i.reference?, name = target ∨ image.hasName name

instance (i : Instruction) : Decidable (Knows image target i) :=
  inferInstanceAs (Decidable (∀ name ∈ i.reference?, name = target ∨ image.hasName name))

theorem admits_strict_iff {i : Instruction} :
    Strictness.strict.admits image target i = .ok () ↔ Knows image target i := by
  simp only [Strictness.admits, Knows]
  cases i.reference? with
  | none => simp
  | some name => by_cases h : name = target ∨ image.hasName name <;> simp [h]

theorem assembleLine_strict (s : List Char) :
    assembleLine .strict image target s =
      (assembleLine .lenient image target s).bind fun line ↦
        match line with
        | none => .ok none
        | some i => (Strictness.strict.admits image target i).map fun _ ↦ some i := by
  simp only [assembleLine]
  split
  · rfl
  · cases readInstruction (Text.trim (beforeComment .code s)) with
    | error e => rfl
    | ok i => cases Strictness.strict.admits image target i <;> rfl

theorem subset_of_assembleLines {strictness : Strictness} {number : Nat} {done : List Instruction}
    {texts : List (List Char)} {body : List Instruction}
    (h : assembleLines strictness image target number done texts = .ok body) : done ⊆ body := by
  induction texts generalizing number done with
  | nil =>
    cases h
    exact fun i hi ↦ List.mem_reverse.mpr hi
  | cons s rest ih =>
    rw [assembleLines] at h
    split at h
    · cases h
    · exact ih h
    · exact List.Subset.trans (List.subset_cons_self _ _) (ih h)

theorem assembleLines_strict_iff {number : Nat} {done : List Instruction} {texts : List (List Char)}
    {body : List Instruction} (hdone : ∀ i ∈ done, Knows image target i) :
    assembleLines .strict image target number done texts = .ok body ↔
      assembleLines .lenient image target number done texts = .ok body ∧
        ∀ i ∈ body, Knows image target i := by
  induction texts generalizing number done with
  | nil =>
    rw [assembleLines, assembleLines, Except.ok.injEq]
    refine ⟨?_, And.left⟩
    rintro rfl
    exact ⟨rfl, fun i hi ↦ hdone i (List.mem_reverse.mp hi)⟩
  | cons s rest ih =>
    rw [assembleLines, assembleLines, assembleLine_strict]
    cases assembleLine .lenient image target s with
    | error cause => simp [Except.bind]
    | ok line =>
      cases line with
      | none => exact ih hdone
      | some i =>
        by_cases hi : Knows image target i
        · have hadmits := admits_strict_iff.mpr hi
          simp only [Except.bind, hadmits, Except.map]
          exact ih (List.forall_mem_cons.mpr ⟨hi, hdone⟩)
        · -- The strict assembler stops here; the body that the lenient one gives has this in it.
          cases hadmits : Strictness.strict.admits image target i with
          | ok => exact absurd (admits_strict_iff.mp hadmits) hi
          | error cause =>
            simp only [Except.bind, hadmits, Except.map, reduceCtorEq, false_iff, not_and]
            exact fun hbody hknown ↦
              hi (hknown i (subset_of_assembleLines hbody List.mem_cons_self))

/-- The strict assembler gives what the source stands for if it knows all that this refers to. -/
theorem assemble_strict_iff {source : String} {body : List Instruction} :
    assemble .strict image target source = .ok body ↔
      AssemblesTo source body ∧ ∀ i ∈ body, Knows image target i := by
  have hiff : assemble .strict image target source = .ok body ↔
      assemble .lenient image target source = .ok body ∧ ∀ i ∈ body, Knows image target i :=
    assembleLines_strict_iff (by simp)
  rw [hiff]
  exact and_congr_left fun _ ↦ ⟨assemblesTo_of_ok, fun h ↦ h image target⟩

end Strict

end HookPatch.Assembly
