import HookPatch.Image
import HookPatch.Proofs.Assembly.Printing

namespace HookPatch

namespace Assembly

open Text

section Reading

variable {s : List Char} {i : Instruction}

theorem wellNamed_of_operand {mnemonic : String} (h : Operand mnemonic s i) : i.WellNamed := by
  cases h with
  | function hname =>
    rintro _ ⟨⟩
    exact hname
  | call hs =>
    obtain ⟨htarget, -⟩ := hs
    rintro _ ⟨⟩
    exact htarget
  | integer => exact nofun
  | string => exact nofun
  | argument => exact nofun

theorem wellNamed_of_written (h : Written s i) : i.WellNamed := by
  cases h with
  | operand _ _ h => exact wellNamed_of_operand h
  | plain h =>
    have hforms : ∀ form ∈ plainForms, form.2.WellNamed := by decide
    exact hforms _ h

theorem wellNamed_of_readInstruction (h : readInstruction s = .ok i) : i.WellNamed :=
  wellNamed_of_written (written_of_readInstruction h)

theorem readInstruction_line_iff : readInstruction (line i).toList = .ok i ↔ i.WellNamed :=
  ⟨wellNamed_of_readInstruction, readInstruction_line⟩

end Reading

theorem admits_unknown {image : Image} {target : String} {i : Instruction}
    (h : ¬ Knows image target i) :
    ∃ name, i.reference? = some name ∧ name ≠ target ∧ ¬ image.hasName name ∧
      Strictness.strict.admits image target i = .error (.unknownFunction name) := by
  simp only [Knows, not_forall, not_or] at h
  obtain ⟨name, href, hne, hname⟩ := h
  refine ⟨name, href, hne, hname, ?_⟩
  simp [Strictness.admits, Option.mem_def.mp href, hne, hname]

section Listing

variable {body : List Instruction} (h : ∀ i ∈ body, i.WellNamed)

include h

theorem lines_listing : lines (listing body).toList = body.map fun i ↦ (line i).toList := by
  induction body with
  | nil => rfl
  | cons i body ih =>
    obtain ⟨hi, hbody⟩ := List.forall_mem_cons.mp h
    have hlisting : (listing (i :: body)).toList =
        (line i).toList ++ '\n' :: (listing body).toList := by
      simp [listing, String.join_cons]
    rw [hlisting, (isLine_line hi).lines_append, ih hbody, List.map_cons]

theorem assemblesTo_listing : AssemblesTo (listing body) body := by
  intro image target
  rw [assemble, lines_listing h]
  exact assembleLines_printed image target h 1 []

variable {image : Image} {target : String}

/-- The strict assembler stops at the first instruction that refers to an unknown name. -/
theorem assembleLines_unknown (hunknown : ¬ ∀ i ∈ body, Knows image target i) (number : Nat)
    (done : List Instruction) :
    ∃ before i after name, body = before ++ i :: after ∧ (∀ j ∈ before, Knows image target j) ∧
      i.reference? = some name ∧ name ≠ target ∧ ¬ image.hasName name ∧
      assembleLines .strict image target number done (body.map fun i ↦ (line i).toList) =
        .error ⟨before.length + number, .unknownFunction name⟩ := by
  induction body generalizing number done with
  | nil => simp at hunknown
  | cons i body ih =>
    obtain ⟨hi, hbody⟩ := List.forall_mem_cons.mp h
    have hline := assembleLine_of_read image target (readInstruction_line hi)
    rw [List.map_cons, assembleLines, assembleLine_strict, hline]
    by_cases hknown : Knows image target i
    · have hrest : ¬ ∀ j ∈ body, Knows image target j := fun hall ↦
        hunknown (List.forall_mem_cons.mpr ⟨hknown, hall⟩)
      obtain ⟨before, j, after, name, hsplit, hbefore, href, hne, hname, herror⟩ :=
        ih hbody hrest (number + 1) (i :: done)
      refine ⟨i :: before, j, after, name, congrArg _ hsplit,
        List.forall_mem_cons.mpr ⟨hknown, hbefore⟩, href, hne, hname, ?_⟩
      rw [List.length_cons, Nat.succ_add_eq_add_succ, ← herror]
      simp only [Except.bind, admits_strict_iff.mpr hknown, Except.map]
    · obtain ⟨name, href, hne, hname, hadmits⟩ := admits_unknown hknown
      refine ⟨[], i, body, name, rfl, by simp, href, hne, hname, ?_⟩
      simp only [Except.bind, hadmits, Except.map, List.length_nil, Nat.zero_add]

end Listing

/-- What the assembler reads is what the printer writes. -/
theorem listing_round_trip :
    (∀ i, readInstruction (line i).toList = .ok i ↔ i.WellNamed) ∧
    (∀ s i, readInstruction s = .ok i → i.WellNamed ∧ readInstruction (line i).toList = .ok i) ∧
    ∀ u : CodeUnit, (∀ i ∈ u.body, i.WellNamed) → ∀ image target,
      assemble .lenient image target (listing u.body) = .ok u.body ∧
      (assemble .strict image target (listing u.body) = .ok u.body ↔
        ∀ i ∈ u.body, Knows image target i) ∧
      ((¬ ∀ i ∈ u.body, Knows image target i) →
        ∃ before i after name, u.body = before ++ i :: after ∧
          (∀ j ∈ before, Knows image target j) ∧
          i.reference? = some name ∧ name ≠ target ∧ ¬ image.hasName name ∧
          assemble .strict image target (listing u.body) =
            .error ⟨before.length + 1, .unknownFunction name⟩) := by
  refine ⟨fun i ↦ readInstruction_line_iff, fun s i h ↦ ?_, fun u hu image target ↦ ?_⟩
  · have hi := wellNamed_of_readInstruction h
    exact ⟨hi, readInstruction_line hi⟩
  · have hassembles := assemblesTo_listing hu
    refine ⟨hassembles image target, ?_, fun hunknown ↦ ?_⟩
    · rw [assemble_strict_iff]
      exact and_iff_right hassembles
    · rw [assemble, lines_listing hu]
      exact assembleLines_unknown hu hunknown 1 []

def jumping : CodeUnit :=
  { name := "jumping", body := [.pushString "a; \"b\"\n\r\u0085", .call "scr_jump" 1, .ret] }

theorem listing_round_trip_jumping :
    (∀ i ∈ jumping.body, i.WellNamed) ∧
    assemble .lenient {} "jumping" (listing jumping.body) = .ok jumping.body ∧
    assemble .strict { functions := [{ name := "scr_jump" }] } "jumping" (listing jumping.body) =
      .ok jumping.body ∧
    ∃ e, assemble .strict {} "jumping" (listing jumping.body) = .error e := by
  have hnamed : ∀ i ∈ jumping.body, i.WellNamed := by decide
  have hround := listing_round_trip.2.2 jumping hnamed
  refine ⟨hnamed, (hround {} "jumping").1, ?_, ?_⟩
  · exact (hround _ "jumping").2.1.mpr (by decide)
  · obtain ⟨before, -, -, name, -, -, -, -, -, herror⟩ := (hround {} "jumping").2.2 (by decide)
    exact ⟨_, herror⟩

end Assembly

end HookPatch
