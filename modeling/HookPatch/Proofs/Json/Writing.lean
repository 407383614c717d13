import HookPatch.Json.Writer
import HookPatch.Proofs.Json.Spelling

namespace HookPatch.Json

open Text

variable {ts us : List Token} {s t : List Glyph}

theorem isBlank_append (hs : IsBlank s) (ht : IsBlank t) : IsBlank (s ++ t) :=
  List.forall_mem_append.mpr ⟨hs, ht⟩

theorem Spells.behind_blank (h : Spells ts t) (hs : IsBlank s) : Spells ts (s ++ t) := by
  cases h with
  | nil ht => exact .nil (isBlank_append hs ht)
  | cons hb hform hrest =>
    rw [← List.append_assoc]
    exact .cons (isBlank_append hs hb) hform hrest

theorem Spells.append (hs : Spells ts s) (ht : Spells us t) : Spells (ts ++ us) (s ++ t) := by
  induction hs with
  | nil hb => exact ht.behind_blank hb
  | cons hb hform _ ih =>
    rw [List.append_assoc, List.append_assoc]
    exact .cons hb hform ih

theorem spells_form {t : Token} {form : List Glyph} (h : t.Form form) : Spells [t] form := by
  have hspells := Spells.cons (b := []) nofun h (.nil (b := []) nofun)
  rwa [List.append_nil] at hspells

theorem exists_piece (c : Char) : ∃ p : Piece, p.Form ((escapeChar c).map some) ∧
    ∀ rest, textBehind? none (p :: rest) = (textBehind? none rest).map (c :: ·) := by
  have hescape {mark : Char} (h : (mark, c) ∈ escapes) :
      ∃ p : Piece, p.Form ([some '\\', some mark]) ∧
        ∀ rest, textBehind? none (p :: rest) = (textBehind? none rest).map (c :: ·) :=
    ⟨.char c, .escape h, fun _ ↦ rfl⟩
  rw [escapeChar]
  split_ifs with hquote hbackslash hfeed hreturn htab hback hform hcontrol
  · subst hquote; exact hescape (by decide)
  · subst hbackslash; exact hescape (by decide)
  · subst hfeed; exact hescape (by decide)
  · subst hreturn; exact hescape (by decide)
  · subst htab; exact hescape (by decide)
  · subst hback; exact hescape (by decide)
  · subst hform; exact hescape (by decide)
  · have hzero : hexDigit? '0' = some 0 := rfl
    have hunit := Piece.Form.unit hzero hzero (hexDigit?_digitChar (c.toNat / 16) (by omega))
      (hexDigit?_digitChar (c.toNat % 16) (by omega))
    rw [show 16 * (16 * (16 * 0 + 0) + c.toNat / 16) + c.toNat % 16 = c.toNat by omega] at hunit
    refine ⟨.unit c.toNat, hunit, fun rest ↦ ?_⟩
    have hhigh : ¬ HighSurrogate c.toNat := fun h ↦ by have := h.1; omega
    have hlow : ¬ LowSurrogate c.toNat := fun h ↦ by have := h.1; omega
    rw [textBehind?, if_neg hhigh, if_neg hlow, Char.ofNat_toNat]
  · exact ⟨.char c, .plain (Nat.not_lt.mp hcontrol) hquote hbackslash, fun _ ↦ rfl⟩

theorem exists_pieces (value : List Char) : ∃ pieces forms,
    List.Forall₂ Piece.Form pieces forms ∧
      forms.flatten = (value.flatMap escapeChar).map some ∧ textBehind? none pieces = some value := by
  induction value with
  | nil => exact ⟨[], [], .nil, rfl, rfl⟩
  | cons c value ih =>
    obtain ⟨pieces, forms, hforms, hflatten, htext⟩ := ih
    obtain ⟨p, hp, hbehind⟩ := exists_piece c
    refine ⟨p :: pieces, _ :: forms, .cons hp hforms, ?_, ?_⟩
    · rw [List.flatten_cons, hflatten, List.flatMap_cons, List.map_append]
    · rw [hbehind, htext, Option.map_some]

theorem quoted_literal (text : Option String) : Quoted text (glyphsOfText (literal text)) := by
  cases text with
  | none =>
    have hunit := Piece.Form.unit (a := 'd') (b := '8') (c := '0') (d := '0') rfl rfl rfl rfl
    exact .pieces (.cons hunit .nil)
  | some s =>
    obtain ⟨pieces, forms, hforms, hflatten, htext⟩ := exists_pieces s.toList
    have hquoted := Quoted.pieces hforms
    rw [htext, Option.map_some, String.ofList_toList, hflatten] at hquoted
    simpa [glyphsOfText, literal] using hquoted

theorem numeral_integer (n : Int) : Numeral (.integer n) (toString n).toList := by
  have hzero : ¬ (decide (n < 0) = true ∧ n.natAbs = 0) := by
    rw [decide_eq_true_eq]
    omega
  have hnumeral := Numeral.integer hzero
  rwa [natAbs_signed, ← toList_toString_int] at hnumeral

theorem exponent_toString (n : Int) : Exponent n ('e' :: (toString n).toList) := by
  have hdigits := digits_toDigits n.natAbs
  rw [toList_toString_int]
  by_cases h : n < 0
  · have hvalue : -(n.natAbs : Int) = n := by omega
    have hexponent := Exponent.minus (.inl rfl) hdigits
    rw [hvalue] at hexponent
    simpa [signed, h] using hexponent
  · have hvalue : (n.natAbs : Int) = n := by omega
    have hexponent := Exponent.bare (.inl rfl) hdigits
    rw [hvalue] at hexponent
    simpa [signed, h] using hexponent

theorem numeral_decimal (d : Decimal) : Numeral (.decimal d) (decimalLiteral d).toList := by
  have hdigits : Digits (Nat.toDigits 10 d.digits ++ []) d.digits := by
    rw [List.append_nil]
    exact digits_toDigits _
  have hnumeral : Numeral (.decimal ⟨d.negative, d.digits, d.exponent - ([] : List Char).length⟩)
      (signed d.negative d.digits ++ ([] ++ 'e' :: (toString d.exponent).toList)) :=
    .decimal .absent (exponent_toString d.exponent) (.inl (List.cons_ne_nil _ _)) hdigits
  rw [toList_decimalLiteral]
  simpa using hnumeral

section Block

variable {α : Type} {f : α → String} {g : α → List Token} {l : List α} {b : List Glyph}

theorem glyphsOfText_append (s t : String) :
    glyphsOfText (s ++ t) = glyphsOfText s ++ glyphsOfText t := by
  rw [glyphsOfText, String.toList_append, List.map_append]
  rfl

theorem spells_member (key : Option String) {j : Json} {value separator : String}
    (hseparator : Spells [.colon] (glyphsOfText separator))
    (hj : Spelled j (glyphsOfText value)) :
    Spells (.scalar (.string key) :: .colon :: j.tokens)
      (glyphsOfText (literal key ++ separator ++ value)) := by
  have hkey := spells_form (.string (quoted_literal key))
  rw [glyphsOfText_append, glyphsOfText_append]
  exact (hkey.append hseparator).append hj

theorem spells_intercalate (h : ∀ a ∈ l, Spells (g a) (glyphsOfText (f a))) {separator : String}
    (hseparator : Spells [.comma] (glyphsOfText separator)) :
    Spells ([.comma].intercalate (l.map g)) (glyphsOfText (separator.intercalate (l.map f))) := by
  induction l with
  | nil => exact .nil nofun
  | cons a l ih =>
    obtain ⟨ha, hl⟩ := List.forall_mem_cons.mp h
    cases l with
    | nil => simpa only [List.map_singleton, List.intercalate_singleton,
        String.intercalate_singleton] using ha
    | cons a' l =>
      simp only [List.map_cons, List.intercalate_cons_cons, String.intercalate_cons_cons,
        glyphsOfText_append] at ih ⊢
      exact (ha.append hseparator).append (ih hl)

/-- Items between brackets, with blanks behind the opening one, each comma and the last item. -/
theorem spells_block (h : ∀ a ∈ l, Spells (g a) (glyphsOfText (f a)))
    {opening closing : Token} {o c : String} (ho : opening.Form (glyphsOfText o))
    (hc : closing.Form (glyphsOfText c)) {gap gap' : String} (hgap : IsBlank (glyphsOfText gap))
    (hgap' : IsBlank (glyphsOfText gap')) :
    Spells (opening :: [.comma].intercalate (l.map g) ++ [closing])
      (glyphsOfText (o ++ gap ++ ("," ++ gap).intercalate (l.map f) ++ gap' ++ c)) := by
  have hcomma : Spells [.comma] (glyphsOfText ("," ++ gap)) := by
    rw [glyphsOfText_append]
    exact (spells_form .comma).append (.nil hgap)
  have hopen := (spells_form ho).append (.nil hgap)
  have hclose := (spells_form hc).behind_blank hgap'
  have hblock := (hopen.append (spells_intercalate h hcomma)).append hclose
  simpa only [glyphsOfText_append, List.append_assoc, List.append_nil, List.singleton_append,
    List.cons_append, List.nil_append] using hblock

theorem isBlank_empty : IsBlank (glyphsOfText "") := nofun

theorem isBlank_newline (level : Nat) : IsBlank (glyphsOfText (newline level)) := by
  have hindent : IsBlank (glyphsOfText (String.join (List.replicate level "  "))) := by
    induction level with
    | zero => exact nofun
    | succ level ih =>
      rw [List.replicate_succ, String.join_cons, glyphsOfText_append]
      exact isBlank_append (by simp [IsBlank, glyphsOfText, blanks]) ih
  rw [newline, glyphsOfText_append]
  exact isBlank_append (by simp [IsBlank, glyphsOfText, blanks]) hindent

theorem spells_blockText (h : ∀ a ∈ l, Spells (g a) (glyphsOfText (f a)))
    {opening closing : Token} {o c : String} (ho : opening.Form (glyphsOfText o))
    (hc : closing.Form (glyphsOfText c)) (level : Nat) :
    Spells (opening :: [.comma].intercalate (l.map g) ++ [closing])
      (glyphsOfText (block level o c (l.map f))) := by
  cases l with
  | nil =>
    have hblock := spells_block h ho hc isBlank_empty isBlank_empty
    simpa [block] using hblock
  | cons a l => exact spells_block h ho hc (isBlank_newline (level + 1)) (isBlank_newline level)

end Block

theorem spelled_string (text : Option String) : Spelled (.string text) (glyphsOfText (literal text)) :=
  spells_form (.string (quoted_literal text))

theorem spelled_integer (n : Int) : Spelled (.integer n) (glyphsOfText (toString n)) :=
  spells_form (.number (numeral_integer n))

theorem spelled_decimal (d : Decimal) : Spelled (.decimal d) (glyphsOfText (decimalLiteral d)) :=
  spells_form (.number (numeral_decimal d))

theorem compactItems_eq_map (items : List Json) : compactItems items = items.map compact := by
  induction items with
  | nil => rfl
  | cons j items ih => rw [compactItems, ih, List.map_cons]

theorem compactMembers_eq_map (members : List (Option String × Json)) :
    compactMembers members = members.map fun m ↦ literal m.1 ++ ":" ++ compact m.2 := by
  induction members with
  | nil => rfl
  | cons m members ih => rw [compactMembers, ih, List.map_cons]

theorem spelled_compact (j : Json) : Spelled j (glyphsOfText j.compact) := by
  induction j using nestedInduction with
  | null => exact spells_form .null
  | bool b => exact spells_form (.bool b)
  | integer n => exact spelled_integer n
  | decimal d => exact spelled_decimal d
  | string s => exact spelled_string s
  | array items ih =>
    have hblock := spells_block ih .beginArray .endArray (o := "[") (c := "]") isBlank_empty
      isBlank_empty
    rw [Spelled, compact, tokens, itemTokens_eq_map, compactItems_eq_map]
    simpa using hblock
  | object members ih =>
    have hcolon : Spells [.colon] (glyphsOfText ":") := spells_form .colon
    have hmember (m : Option String × Json) (hm : m ∈ members) :=
      spells_member m.1 hcolon (ih m hm)
    have hblock := spells_block hmember .beginObject .endObject (o := "\x7b") (c := "\x7d")
      isBlank_empty isBlank_empty
    rw [Spelled, compact, tokens, memberTokens_eq_map, compactMembers_eq_map]
    simpa using hblock

theorem ofText?_compact (j : Json) : ofText? j.compact = some j :=
  ofGlyphs?_of_spelled (spelled_compact j)

theorem indentedItems_eq_map (level : Nat) (items : List Json) :
    indentedItems level items = items.map (indented level) := by
  induction items with
  | nil => rfl
  | cons j items ih => rw [indentedItems, ih, List.map_cons]

theorem indentedMembers_eq_map (level : Nat) (members : List (Option String × Json)) :
    indentedMembers level members =
      members.map fun m ↦ literal m.1 ++ ": " ++ indented level m.2 := by
  induction members with
  | nil => rfl
  | cons m members ih => rw [indentedMembers, ih, List.map_cons]

theorem spelled_indented (level : Nat) (j : Json) : Spelled j (glyphsOfText (j.indented level)) := by
  induction j using nestedInduction generalizing level with
  | null => exact spells_form .null
  | bool b => exact spells_form (.bool b)
  | integer n => exact spelled_integer n
  | decimal d => exact spelled_decimal d
  | string s => exact spelled_string s
  | array items ih =>
    rw [Spelled, indented, tokens, itemTokens_eq_map, indentedItems_eq_map]
    exact spells_blockText (fun j hj ↦ ih j hj (level + 1)) .beginArray .endArray level
  | object members ih =>
    have hblank : IsBlank (glyphsOfText " ") := by simp [IsBlank, glyphsOfText, blanks]
    have hcolon : Spells [.colon] (glyphsOfText ": ") := (spells_form .colon).append (.nil hblank)
    rw [Spelled, indented, tokens, memberTokens_eq_map, indentedMembers_eq_map]
    exact spells_blockText (fun m hm ↦ spells_member m.1 hcolon (ih m hm (level + 1)))
      .beginObject .endObject level

theorem spelled_pretty (j : Json) : Spelled j (glyphsOfText j.pretty) := spelled_indented 0 j

theorem ofText?_pretty (j : Json) : ofText? j.pretty = some j :=
  ofGlyphs?_of_spelled (spelled_pretty j)

end HookPatch.Json
