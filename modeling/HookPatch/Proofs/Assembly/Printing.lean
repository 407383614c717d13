import HookPatch.Proofs.Assembly.Comments
import HookPatch.Proofs.Assembly.Strictness

namespace HookPatch

/-- Whether the name to which an instruction refers, if any, is an identifier. -/
def Instruction.WellNamed (i : Instruction) : Prop :=
  ∀ name ∈ i.reference?, Assembly.isIdentifier name.toList

instance (i : Instruction) : Decidable i.WellNamed :=
  inferInstanceAs (Decidable (∀ name ∈ i.reference?, Assembly.isIdentifier name.toList))

namespace Assembly

open Text

theorem written_line {i : Instruction} (h : i.WellNamed) : Written (line i).toList i := by
  have hgap : AllBlank [' '] := List.forall_mem_singleton.mpr (by decide)
  have hne : [' '] ≠ [] := List.cons_ne_nil _ _
  cases i with
  | pushInt value =>
    have hline : (line (.pushInt value)).toList =
        "push.l".toList ++ [' '] ++ (toString value.toInt).toList := by simp [line]
    rw [hline]
    exact .operand hgap hne (.integer (signedNumeral_toString value.toInt))
  | pushString value =>
    have hline : (line (.pushString value)).toList = "push.s".toList ++ [' '] ++
        '"' :: (value.toList.flatMap escapeChar ++ ['"']) := by simp [line, escape]
    rw [hline]
    exact .operand hgap hne (.string (literal_escape value.toList))
  | pushFunction name =>
    have hline : (line (.pushFunction name)).toList = "push.f".toList ++ [' '] ++ name.toList := by
      simp [line]
    rw [hline]
    exact .operand hgap hne (.function (h name rfl))
  | pushArgument index =>
    have hline : (line (.pushArgument index)).toList =
        "push.a".toList ++ [' '] ++ (toString index.toNat).toList := by simp [line]
    rw [hline]
    exact .operand hgap hne (.argument (unsignedNumeral_toString index.toNat))
  | call target argc =>
    have hline : (line (.call target argc)).toList = "call".toList ++ [' '] ++
        (target.toList ++ [] ++ '(' :: ([] ++ "argc=".toList ++ [] ++
          (toString argc.toNat).toList ++ [] ++ [')'])) := by simp [line]
    rw [hline]
    exact .operand hgap hne (.call (.intro (h target rfl) (unsignedNumeral_toString argc.toNat)
      allBlank_nil allBlank_nil allBlank_nil allBlank_nil))
  | pop => exact .plain (by decide : ("pop", .pop) ∈ plainForms)
  | add => exact .plain (by decide : ("add", .add) ∈ plainForms)
  | ret => exact .plain (by decide : ("ret", .ret) ∈ plainForms)
  | exit => exact .plain (by decide : ("exit", .exit) ∈ plainForms)
  | nop => exact .plain (by decide : ("nop", .nop) ∈ plainForms)

theorem readInstruction_line {i : Instruction} (h : i.WellNamed) :
    readInstruction (line i).toList = .ok i := by
  have hread := readInstruction_of_written (written_line h) allBlank_nil allBlank_nil
  rwa [List.nil_append, List.append_nil] at hread

def isPrinted (c : Char) : Bool := isIdentifierChar c || " -(=)".toList.contains c

theorem isPrinted_of_isIdentifier {s : List Char} (h : isIdentifier s) : ∀ c ∈ s, isPrinted c := by
  intro c hc
  rw [isPrinted, (isIdentifier_iff.mp h).2 c hc, Bool.true_or]

theorem isPrinted_toString_nat (n : Nat) : ∀ c ∈ (toString n).toList, isPrinted c := by
  rw [Nat.toString_eq_repr, Nat.toList_repr]
  exact isPrinted_of_isIdentifier (isIdentifier_of_digits (digits_toDigits n))

theorem isPrinted_toString_int (n : Int) : ∀ c ∈ (toString n).toList, isPrinted c := by
  rw [Int.toString_eq_repr, Int.repr_eq_if]
  split
  · exact isPrinted_toString_nat n.toNat
  · rw [String.toList_append, List.forall_mem_append]
    exact ⟨List.all_eq_true.mp (by decide), isPrinted_toString_nat (-n).toNat⟩

theorem isPrinted_line {i : Instruction} (h : i.WellNamed) (hi : ∀ value, i ≠ .pushString value) :
    ∀ c ∈ (line i).toList, isPrinted c := by
  cases i with
  | pushString value => exact absurd rfl (hi value)
  | pushInt value =>
    rw [line, String.toList_append, List.forall_mem_append]
    exact ⟨List.all_eq_true.mp (by decide), isPrinted_toString_int value.toInt⟩
  | pushFunction name =>
    rw [line, String.toList_append, List.forall_mem_append]
    exact ⟨List.all_eq_true.mp (by decide), isPrinted_of_isIdentifier (h name rfl)⟩
  | pushArgument index =>
    rw [line, String.toList_append, List.forall_mem_append]
    exact ⟨List.all_eq_true.mp (by decide), isPrinted_toString_nat index.toNat⟩
  | call target argc =>
    simp only [line, String.toList_append, List.forall_mem_append]
    exact ⟨⟨⟨⟨List.all_eq_true.mp (by decide), isPrinted_of_isIdentifier (h target rfl)⟩,
      List.all_eq_true.mp (by decide)⟩,
      isPrinted_toString_nat argc.toNat⟩, List.all_eq_true.mp (by decide)⟩
  | _ => exact List.all_eq_true.mp (by decide)

theorem not_mem_escapeChar (c : Char) : '\n' ∉ escapeChar c := by
  rw [escapeChar]
  split
  · decide
  split
  · decide
  split
  · decide
  split
  · decide
  · rename_i hfeed _
    exact fun hmem ↦ hfeed (List.mem_singleton.mp hmem).symm

theorem isLine_line {i : Instruction} (h : i.WellNamed) : IsLine (line i).toList := by
  have hne : (line i).toList ≠ [] := by
    intro hnil
    have hread := readInstruction_line h
    rw [hnil] at hread
    cases hread
  by_cases hi : ∃ value, i = .pushString value
  · obtain ⟨value, rfl⟩ := hi
    have hline : (line (.pushString value)).toList =
        "push.s \"".toList ++ value.toList.flatMap escapeChar ++ ['"'] := by
      simp [line, escape]
    have hvalue : '\n' ∉ value.toList.flatMap escapeChar := by
      rw [List.mem_flatMap]
      rintro ⟨c, -, hc⟩
      exact not_mem_escapeChar c hc
    refine ⟨hne, ?_, ?_⟩
    · rw [hline, List.mem_append, List.mem_append, not_or, not_or]
      exact ⟨⟨by decide, hvalue⟩, by decide⟩
    · rw [hline, List.getLast?_concat]
      decide
  · have hprinted := isPrinted_line h (not_exists.mp hi)
    refine ⟨hne, fun hfeed ↦ ?_, fun hreturn ↦ ?_⟩
    · exact absurd (hprinted _ hfeed) (by decide)
    · exact absurd (hprinted _ (List.mem_of_getLast? hreturn)) (by decide)

theorem assembleLines_printed (image : Image) (target : String) {body : List Instruction}
    (h : ∀ i ∈ body, i.WellNamed) (number : Nat) (done : List Instruction) :
    assembleLines .lenient image target number done (body.map fun i ↦ (line i).toList) =
      .ok (done.reverse ++ body) := by
  induction body generalizing number done with
  | nil => rw [List.map_nil, assembleLines, List.append_nil]
  | cons i body ih =>
    have hi : i.WellNamed := h i List.mem_cons_self
    rw [List.map_cons, assembleLines, assembleLine_of_read image target (readInstruction_line hi)]
    refine (ih (fun j hj ↦ h j (List.mem_cons_of_mem _ hj)) (number + 1) (i :: done)).trans ?_
    rw [List.reverse_cons, List.append_assoc, List.singleton_append]

/-- A body that is printed line by line assembles to itself. -/
theorem assemblesTo_printed {body : List Instruction} (h : ∀ i ∈ body, i.WellNamed) :
    AssemblesTo ("\n".intercalate (body.map line)) body := by
  intro image target
  have hlines : ∀ s ∈ body.map fun i ↦ (line i).toList, IsLine s := by
    intro s hs
    obtain ⟨i, hi, rfl⟩ := List.mem_map.mp hs
    exact isLine_line (h i hi)
  have htext : ("\n".intercalate (body.map line)).toList =
      ['\n'].intercalate (body.map fun i ↦ (line i).toList) := by
    rw [String.toList_intercalate, List.map_map]
    rfl
  rw [assemble, htext, lines_intercalate hlines]
  exact assembleLines_printed image target h 1 []

end Assembly

end HookPatch
