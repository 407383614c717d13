import HookPatch.Assembly.Printer
import HookPatch.Assembly.Source
import HookPatch.Proofs.Outcomes
import HookPatch.Proofs.Text.Blank

namespace HookPatch.Assembly

open Text

/-- What may stand behind a backslash, and the character that it stands for there. -/
def escapes : List (Char × Char) := [('n', '\n'), ('t', '\t'), ('"', '"'), ('\\', '\\')]

/-- The content of a literal, and its value. -/
inductive Literal : List Char → List Char → Prop
  | nil : Literal [] []
  | char {c : Char} {s value : List Char} :
      c ≠ '"' → c ≠ '\\' → Literal s value → Literal (c :: s) (c :: value)
  | escape {c d : Char} {s value : List Char} :
      (c, d) ∈ escapes → Literal s value → Literal ('\\' :: c :: s) (d :: value)

theorem unescapeChar?_eq_some_iff {c d : Char} : unescapeChar? c = some d ↔ (c, d) ∈ escapes := by
  simp only [unescapeChar?, escapes, List.mem_cons, Prod.mk.injEq, List.not_mem_nil, or_false]
  grind

theorem literal_escape (value : List Char) : Literal (value.flatMap escapeChar) value := by
  induction value with
  | nil => exact .nil
  | cons c value ih =>
    rw [List.flatMap_cons, escapeChar]
    split
    · rename_i hc; subst hc; exact .escape (by decide) ih
    split
    · rename_i hc; subst hc; exact .escape (by decide) ih
    split
    · rename_i hc; subst hc; exact .escape (by decide) ih
    split
    · rename_i hc; subst hc; exact .escape (by decide) ih
    · rename_i hquote hbackslash _ _
      exact .char hquote hbackslash ih

/-- A literal ends at the first quote that no backslash stands before, and its escapes are undone. -/
theorem readLiteral_eq_ok_iff {s done v rest : List Char} : readLiteral done s = .ok (v, rest) ↔
    ∃ content value, Literal content value ∧ s = content ++ '"' :: rest ∧
      v = done.reverse ++ value := by
  constructor
  · intro h
    fun_induction readLiteral done s with
    | case1 => cases h
    | case2 done rest =>
      cases h
      exact ⟨[], [], .nil, rfl, (List.append_nil _).symm⟩
    | case3 => cases h
    | case4 done c rest d hd ih =>
      obtain ⟨content, value, hliteral, rfl, rfl⟩ := ih h
      exact ⟨'\\' :: c :: content, d :: value, .escape (unescapeChar?_eq_some_iff.mp hd) hliteral,
        rfl, by simp⟩
    | case5 => cases h
    | case6 done c rest hquote hlast hescape ih =>
      have hbackslash : c ≠ '\\' := by
        intro hc
        cases rest with
        | nil => exact hlast hc rfl
        | cons d rest => exact hescape d rest hc rfl
      obtain ⟨content, value, hliteral, rfl, rfl⟩ := ih h
      exact ⟨c :: content, c :: value, .char hquote hbackslash hliteral, rfl, by simp⟩
  · rintro ⟨content, value, hliteral, rfl, rfl⟩
    induction hliteral generalizing done with
    | nil => rw [List.nil_append, readLiteral, List.append_nil]
    | char hquote hbackslash _ ih =>
      rw [List.cons_append, readLiteral, ih]
      · simp
      · exact hquote
      · exact fun h _ ↦ hbackslash h
      · exact fun _ _ h _ ↦ hbackslash h
    | escape hescape _ ih =>
      simp only [List.cons_append, readLiteral, unescapeChar?_eq_some_iff.mpr hescape, ih]
      simp

theorem beforeComment_literal {content value : List Char} (h : Literal content value)
    (t : List Char) : beforeComment .literal (content ++ '"' :: t) =
      content ++ '"' :: beforeComment .code t := by
  induction h with
  | nil => rfl
  | char hquote hbackslash _ ih =>
    rw [List.cons_append, List.cons_append, ← ih, beforeComment, if_neg (by simp), ScanState.next,
      if_neg hbackslash, if_neg hquote]
  | escape _ _ ih =>
    rw [List.cons_append, List.cons_append, List.cons_append, List.cons_append, ← ih]
    rfl

theorem readString_eq_ok_iff {s : List Char} {value : String} : readString s = .ok value ↔
    ∃ content after, Literal content value.toList ∧ AllBlank after ∧
      s = '"' :: content ++ '"' :: after := by
  rw [readString.eq_def]
  split
  · rename_i s
    rw [except_bind_eq_ok_iff]
    constructor
    · rintro ⟨⟨v, rest⟩, hread, h⟩
      obtain ⟨content, v, hliteral, rfl, rfl⟩ := readLiteral_eq_ok_iff.mp hread
      dsimp only at h
      split at h
      · rename_i hblank
        cases h
        rw [String.toList_ofList]
        exact ⟨content, rest, hliteral, trim_eq_nil_iff.mp (List.isEmpty_iff.mp hblank), rfl⟩
      · cases h
    · rintro ⟨content, after, hliteral, hblank, heq⟩
      obtain rfl := (List.cons.inj heq).2
      refine ⟨_, readLiteral_eq_ok_iff.mpr ⟨content, _, hliteral, rfl, rfl⟩, ?_⟩
      simp [hblank.trim_eq]
  · rename_i hquote
    refine ⟨nofun, ?_⟩
    rintro ⟨content, after, -, -, rfl⟩
    exact absurd rfl (hquote _)

end HookPatch.Assembly
