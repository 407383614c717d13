import HookPatch.Proofs.Json.Lexing
import HookPatch.Proofs.Json.Tokens
import Mathlib.Data.List.Chain

namespace HookPatch.Json

open Text

def escapes : List (Char × Char) :=
  [('"', '"'), ('\\', '\\'), ('/', '/'), ('b', '\x08'), ('f', '\x0c'), ('n', '\n'), ('r', '\r'),
    ('t', '\t')]

/-- A piece of a string: a character, a UTF-16 code unit given by its number, or a byte outside all
characters. -/
inductive Piece
  | char (c : Char)
  | unit (n : Nat)
  | byte

inductive Piece.Form : Piece → List Glyph → Prop
  | plain {c : Char} : 0x20 ≤ c.toNat → c ≠ '"' → c ≠ '\\' → Form (char c) [some c]
  | escape {mark c : Char} : (mark, c) ∈ escapes → Form (char c) [some '\\', some mark]
  | unit {a b c d : Char} {i j k l : Nat} :
      hexDigit? a = some i → hexDigit? b = some j → hexDigit? c = some k → hexDigit? d = some l →
      Form (unit (16 * (16 * (16 * i + j) + k) + l))
        [some '\\', some 'u', some a, some b, some c, some d]
  | byte : Form byte [none]

def HighSurrogate (n : Nat) : Prop := 0xD800 ≤ n ∧ n < 0xDC00

def LowSurrogate (n : Nat) : Prop := 0xDC00 ≤ n ∧ n < 0xE000

instance (n : Nat) : Decidable (HighSurrogate n) := instDecidableAnd

instance (n : Nat) : Decidable (LowSurrogate n) := instDecidableAnd

/-- The text of some pieces behind a high surrogate or not. Surrogates are text in pairs only. -/
def textBehind? : Option Nat → List Piece → Option (List Char)
  | none, [] => some []
  | none, .char c :: rest => (textBehind? none rest).map (c :: ·)
  | none, .unit n :: rest =>
    if HighSurrogate n then textBehind? (some n) rest
    else if LowSurrogate n then none
    else (textBehind? none rest).map (Char.ofNat n :: ·)
  | some high, .unit n :: rest =>
    if LowSurrogate n then
      (textBehind? none rest).map
        (Char.ofNat (0x10000 + (high - 0xD800) * 0x400 + (n - 0xDC00)) :: ·)
    else none
  | _, _ => none

/-- A string literal, and its text if it is one. -/
inductive Quoted : Option String → List Glyph → Prop
  | pieces {pieces : List Piece} {forms : List (List Glyph)} :
      List.Forall₂ Piece.Form pieces forms →
      Quoted ((textBehind? none pieces).map String.ofList)
        (some '"' :: forms.flatten ++ [some '"'])

def Content.add (s : Content) : Piece → Content
  | .char c => s.push c
  | .unit n => s.pushUnit n
  | .byte => s.garble

theorem escaped_eq {mark c : Char} (h : (mark, c) ∈ escapes) (s : Content) :
    escaped s mark = some (.literal (s.push c)) := by
  simp only [escapes, List.mem_cons, Prod.mk.injEq, List.not_mem_nil, or_false] at h
  rcases h with ⟨rfl, rfl⟩ | ⟨rfl, rfl⟩ | ⟨rfl, rfl⟩ | ⟨rfl, rfl⟩ | ⟨rfl, rfl⟩ | ⟨rfl, rfl⟩ |
    ⟨rfl, rfl⟩ | ⟨rfl, rfl⟩ <;> rfl

theorem tokensFrom_piece {p : Piece} {form : List Glyph} (h : p.Form form) (s : Content)
    (done : List Token) (rest : List Glyph) :
    tokensFrom (.literal s) done (form ++ rest) = tokensFrom (.literal (s.add p)) done rest := by
  cases h with
  | @plain c hcontrol hquote hbackslash =>
    have hcontrol : ¬ c.toNat < 0x20 := Nat.not_lt.mpr hcontrol
    simp [tokensFrom, Mode.step, hquote, hbackslash, hcontrol, Content.add]
  | escape hmark => simp [tokensFrom, Mode.step, escaped_eq hmark, Content.add]
  | unit ha hb hc hd =>
    have hunit : escaped s 'u' = some (.unit s 3 0) := rfl
    simp [tokensFrom, Mode.step, hunit, ha, hb, hc, hd, Content.add]
  | byte => rfl

theorem tokensFrom_pieces {pieces : List Piece} {forms : List (List Glyph)}
    (h : List.Forall₂ Piece.Form pieces forms) (s : Content) (done : List Token)
    (rest : List Glyph) :
    tokensFrom (.literal s) done (forms.flatten ++ rest) =
      tokensFrom (.literal (pieces.foldl Content.add s)) done rest := by
  induction h generalizing s with
  | nil => rfl
  | cons hp _ ih =>
    rw [List.flatten_cons, List.append_assoc, tokensFrom_piece hp, ih, List.foldl_cons]

theorem Content.sound_add {s : Content} (h : s.sound = false) (p : Piece) :
    (s.add p).sound = false := by
  cases p with
  | char c => simp [add, push, h]
  | unit n =>
    simp only [add, pushUnit]
    split <;> split_ifs <;> simp [push, garble, h]
  | byte => rfl

theorem Content.text?_of_unsound {s : Content} (h : s.sound = false) (pieces : List Piece) :
    (pieces.foldl Content.add s).text? = none := by
  induction pieces generalizing s with
  | nil => simp [text?, h]
  | cons p pieces ih => exact ih (sound_add h p)

/-- What a literal has come to is its text so far with the text of the pieces behind it. -/
theorem Content.text?_foldl {s : Content} (h : s.sound = true) (pieces : List Piece) :
    (pieces.foldl Content.add s).text? =
      (textBehind? s.high pieces).map fun text ↦ String.ofList (s.chars.reverse ++ text) := by
  induction pieces generalizing s with
  | nil => cases hhigh : s.high <;> simp [text?, textBehind?, h, hhigh]
  | cons p pieces ih =>
    rw [List.foldl_cons]
    cases hhigh : s.high with
    | none =>
      cases p with
      | char c =>
        have hsound : (s.add (.char c)).sound = true := by simp [add, push, h, hhigh]
        rw [ih hsound, textBehind?, Option.map_map]
        simp [add, push, Function.comp_def]
      | unit n =>
        by_cases hn : HighSurrogate n
        · have hadd : s.add (.unit n) = { s with high := some n } := by
            simp only [add, pushUnit, hhigh]
            exact if_pos hn
          rw [hadd, textBehind?, if_pos hn]
          exact ih (s := { s with high := some n }) h
        by_cases hlow : LowSurrogate n
        · have hadd : s.add (.unit n) = s.garble := by
            simp only [add, pushUnit, hhigh]
            exact (if_neg hn).trans (if_pos hlow)
          rw [hadd, text?_of_unsound rfl, textBehind?, if_neg hn, if_pos hlow]
          rfl
        · have hadd : s.add (.unit n) = s.push (Char.ofNat n) := by
            simp only [add, pushUnit, hhigh]
            exact (if_neg hn).trans (if_neg hlow)
          have hsound : (s.push (Char.ofNat n)).sound = true := by simp [push, h, hhigh]
          rw [hadd, ih hsound, textBehind?, if_neg hn, if_neg hlow, Option.map_map]
          simp [push, Function.comp_def]
      | byte => exact text?_of_unsound rfl pieces
    | some high =>
      cases p with
      | char c =>
        have hsound : (s.add (.char c)).sound = false := by simp [add, push, hhigh]
        exact text?_of_unsound hsound pieces
      | unit n =>
        by_cases hlow : LowSurrogate n
        · let s' : Content := { s with
            chars := Char.ofNat (0x10000 + (high - 0xD800) * 0x400 + (n - 0xDC00)) :: s.chars
            high := none }
          have hadd : s.add (.unit n) = s' := by
            simp only [add, pushUnit, hhigh]
            exact if_pos hlow
          rw [hadd, ih (s := s') h, textBehind?, if_pos hlow, Option.map_map]
          simp [s', Function.comp_def]
        · have hadd : s.add (.unit n) = s.garble := by
            simp only [add, pushUnit, hhigh]
            exact if_neg hlow
          rw [hadd, text?_of_unsound rfl, textBehind?, if_neg hlow]
          rfl
      | byte => exact text?_of_unsound rfl pieces

theorem tokensFrom_quoted {text : Option String} {form : List Glyph} (h : Quoted text form)
    (done : List Token) (rest : List Glyph) :
    tokensFrom .blank done (form ++ rest) =
      tokensFrom .blank (.scalar (.string text) :: done) rest := by
  cases h with
  | @pieces pieces forms hforms =>
    have hopen (rest : List Glyph) : tokensFrom .blank done (some '"' :: rest) =
        tokensFrom (.literal {}) done rest := rfl
    have hclose (s : Content) : tokensFrom (.literal s) done (some '"' :: rest) =
        tokensFrom .blank (.scalar (.string s.text?) :: done) rest := rfl
    have htext := Content.text?_foldl (s := {}) rfl pieces
    simp only [List.reverse_nil, List.nil_append] at htext
    rw [List.cons_append, List.cons_append, hopen, List.append_assoc, tokensFrom_pieces hforms,
      List.singleton_append, hclose, htext]

inductive Fraction : List Char → List Char → Prop
  | absent : Fraction [] []
  | digits {s : List Char} {n : Nat} : Digits s n → Fraction s ('.' :: s)

inductive Exponent : Int → List Char → Prop
  | absent : Exponent 0 []
  | bare {e : Char} {s : List Char} {n : Nat} : e = 'e' ∨ e = 'E' → Digits s n → Exponent n (e :: s)
  | plus {e : Char} {s : List Char} {n : Nat} :
      e = 'e' ∨ e = 'E' → Digits s n → Exponent n (e :: '+' :: s)
  | minus {e : Char} {s : List Char} {n : Nat} :
      e = 'e' ∨ e = 'E' → Digits s n → Exponent (-n) (e :: '-' :: s)

/-- A number as it is written. It is an integer if it has neither fraction nor exponent, unless it is a
negative zero. -/
inductive Numeral : Json → List Char → Prop
  | integer {negative : Bool} {n : Nat} : ¬ (negative = true ∧ n = 0) →
      Numeral (.integer (if negative then -n else n)) (signed negative n)
  | decimal {negative : Bool} {n digits : Nat} {fraction s t : List Char} {exponent : Int} :
      Fraction fraction s → Exponent exponent t → s ++ t ≠ [] ∨ negative = true ∧ n = 0 →
      Digits (Nat.toDigits 10 n ++ fraction) digits →
      Numeral (.decimal ⟨negative, digits, exponent - fraction.length⟩)
        (signed negative n ++ (s ++ t))

section Numeral

variable {s t fraction : List Char} {exponent : Int} {n : Nat} {j : Json}

theorem takeWhile_digits (hs : ∀ c ∈ s, c.isDigit) (ht : ∀ c ∈ t.head?, ¬ c.isDigit) :
    (s ++ t).takeWhile Char.isDigit = s ∧ (s ++ t).dropWhile Char.isDigit = t := by
  rw [List.takeWhile_append_of_pos hs, List.dropWhile_append_of_pos hs]
  cases t with
  | nil => exact ⟨List.append_nil s, rfl⟩
  | cons c t =>
    have hc : ¬ c.isDigit := ht c rfl
    rw [List.takeWhile_cons_of_neg hc, List.dropWhile_cons_of_neg hc]
    exact ⟨List.append_nil s, rfl⟩

theorem Exponent.head (h : Exponent exponent t) : ∀ c ∈ t.head?, c = 'e' ∨ c = 'E' := by
  cases h with
  | absent => exact nofun
  | bare he _ => exact fun c hc ↦ Option.mem_some.mp hc ▸ he
  | plus he _ => exact fun c hc ↦ Option.mem_some.mp hc ▸ he
  | minus he _ => exact fun c hc ↦ Option.mem_some.mp hc ▸ he

theorem Exponent.not_digit (h : Exponent exponent t) : ∀ c ∈ t.head?, ¬ c.isDigit := by
  intro c hc
  rcases h.head c hc with rfl | rfl <;> decide

theorem Fraction.not_digit (h : Fraction fraction s) (ht : ∀ c ∈ t.head?, ¬ c.isDigit) :
    ∀ c ∈ (s ++ t).head?, ¬ c.isDigit := by
  cases h with
  | absent => exact ht
  | digits _ =>
    rintro c ⟨⟩
    decide

theorem Fraction.fraction?_eq (h : Fraction fraction s) (ht : Exponent exponent t) :
    fraction? (s ++ t) = some (if s = [] then none else some fraction, t) := by
  cases h with
  | absent =>
    cases t with
    | nil => rfl
    | cons c t => rcases ht.head c rfl with rfl | rfl <;> rfl
  | digits h =>
    obtain ⟨htake, hdrop⟩ := takeWhile_digits h.isDigit ht.not_digit
    have hne : ¬ fraction.isEmpty := by simpa using h.ne_nil
    rw [List.cons_append, fraction?]
    simp only [htake, hdrop, hne, if_false, reduceCtorEq, Bool.false_eq_true]

theorem Exponent.exponent?_eq (h : Exponent exponent t) :
    exponent? t = some (if t = [] then none else some exponent) := by
  cases h with
  | absent => rfl
  | @bare e s n he h =>
    obtain ⟨c, rest, rfl, -⟩ := h.exists_cons
    obtain ⟨hplus, hminus⟩ := h.not_sign
    have hall := List.all_eq_true.mpr h.isDigit
    rcases he with rfl | rfl <;> simp_all [exponent?, h.numberOf_eq]
  | @plus e s n he h =>
    have hall := List.all_eq_true.mpr h.isDigit
    rcases he with rfl | rfl <;> simp_all [exponent?, h.numberOf_eq, h.ne_nil]
  | @minus e s n he h =>
    have hall := List.all_eq_true.mpr h.isDigit
    rcases he with rfl | rfl <;> simp_all [exponent?, h.numberOf_eq, h.ne_nil]

theorem Fraction.getD_eq (h : Fraction fraction s) :
    (if s = [] then none else some fraction).getD [] = fraction := by
  cases h <;> rfl

theorem Exponent.getD_eq (h : Exponent exponent t) :
    (if t = [] then none else some exponent).getD 0 = exponent := by
  cases h <;> rfl

theorem Fraction.isNumberChar (h : Fraction fraction s) : ∀ c ∈ s, isNumberChar c := by
  cases h with
  | absent => exact nofun
  | digits h =>
    exact List.forall_mem_cons.mpr ⟨rfl, fun c hc ↦ isNumberChar_of_isDigit (h.isDigit c hc)⟩

theorem Exponent.isNumberChar (h : Exponent exponent t) : ∀ c ∈ t, isNumberChar c := by
  have hmark {e : Char} (he : e = 'e' ∨ e = 'E') : Json.isNumberChar e := by
    rcases he with rfl | rfl <;> rfl
  have hdigits {s : List Char} {n : Nat} (h : Digits s n) : ∀ c ∈ s, Json.isNumberChar c :=
    fun c hc ↦ isNumberChar_of_isDigit (h.isDigit c hc)
  cases h with
  | absent => exact nofun
  | bare he h => exact List.forall_mem_cons.mpr ⟨hmark he, hdigits h⟩
  | plus he h =>
    exact List.forall_mem_cons.mpr ⟨hmark he, List.forall_mem_cons.mpr ⟨rfl, hdigits h⟩⟩
  | minus he h =>
    exact List.forall_mem_cons.mpr ⟨hmark he, List.forall_mem_cons.mpr ⟨rfl, hdigits h⟩⟩

theorem Numeral.exists_signed (h : Numeral j s) : ∃ negative n t, s = signed negative n ++ t ∧
    number? s = some j ∧ ∀ c ∈ t, isNumberChar c := by
  cases h with
  | @integer negative n hzero =>
    have hread := number?_signed negative n (t := []) (by simp) rfl rfl
    rw [List.append_nil] at hread
    have hinteger : (!(negative && n = 0)) = true := by
      cases negative with
      | false => rfl
      | true => simpa using hzero
    exact ⟨negative, n, [], (List.append_nil _).symm, hread.trans (if_pos hinteger), by simp⟩
  | @decimal negative n digits fraction s t exponent hfraction hexponent hform hdigits =>
    have hread := number?_signed negative n (hfraction.not_digit hexponent.not_digit)
      (hfraction.fraction?_eq hexponent) hexponent.exponent?_eq
    have hdecimal : ¬ ((if s = [] then none else some fraction).isNone &&
        (if t = [] then none else some exponent).isNone && !(negative && n = 0)) := by
      by_cases hs : s = [] <;> by_cases ht : t = [] <;> simp_all
    rw [if_neg hdecimal, hfraction.getD_eq, hexponent.getD_eq, hdigits.numberOf_eq] at hread
    exact ⟨negative, n, s ++ t, rfl, hread,
      List.forall_mem_append.mpr ⟨hfraction.isNumberChar, hexponent.isNumberChar⟩⟩

theorem Numeral.givesParted (h : Numeral j s) : GivesParted s [.scalar j] := by
  obtain ⟨negative, n, t, rfl, hread, ht⟩ := h.exists_signed
  exact givesParted_signed ht hread

end Numeral

inductive Token.Form : Token → List Glyph → Prop
  | beginArray : Form .beginArray [some '[']
  | endArray : Form .endArray [some ']']
  | beginObject : Form .beginObject [some '\x7b']
  | endObject : Form .endObject [some '\x7d']
  | colon : Form .colon [some ':']
  | comma : Form .comma [some ',']
  | null : Form (.scalar .null) ("null".toList.map some)
  | bool (b : Bool) : Form (.scalar (.bool b)) ((if b then "true" else "false").toList.map some)
  | number {j : Json} {s : List Char} : Numeral j s → Form (.scalar j) (s.map some)
  | string {text : Option String} {form : List Glyph} :
      Quoted text form → Form (.scalar (.string text)) form

def blanks : List Char := [' ', '\t', '\n', '\r']

def IsBlank (s : List Glyph) : Prop := ∀ g ∈ s, ∃ c ∈ blanks, g = some c

/-- Tokens one after another, with blanks before each of them and behind the last one. -/
inductive Spells : List Token → List Glyph → Prop
  | nil {b : List Glyph} : IsBlank b → Spells [] b
  | cons {t : Token} {ts : List Token} {b form rest : List Glyph} :
      IsBlank b → t.Form form → Spells ts rest → Spells (t :: ts) (b ++ (form ++ rest))

def Spelled (j : Json) (s : List Glyph) : Prop := Spells j.tokens s

def Token.IsScalar : Token → Prop
  | .scalar _ => True
  | _ => False

/-- Of two tokens in a row at most one is a scalar. -/
def Token.Apart (t u : Token) : Prop := t.IsScalar → ¬ u.IsScalar

section Tokens

variable {t : Token} {ts us : List Token} {b form s rest : List Glyph} {done : List Token}

theorem start_blank {c : Char} (h : c ∈ blanks) : start c = some (.blank, []) := by
  simp only [blanks, List.mem_cons, List.not_mem_nil, or_false] at h
  rcases h with rfl | rfl | rfl | rfl <;> rfl

theorem tokensFrom_blank (h : IsBlank b) (done : List Token) (rest : List Glyph) :
    tokensFrom .blank done (b ++ rest) = tokensFrom .blank done rest := by
  induction b with
  | nil => rfl
  | cons g b ih =>
    obtain ⟨⟨c, hc, rfl⟩, hb⟩ := List.forall_mem_cons.mp h
    rw [List.cons_append, tokensFrom, Mode.step, Option.bind_some, start_blank hc]
    exact ih hb

/-- Only a number depends on what stands behind a token. -/
theorem tokensFrom_form (h : t.Form form) (hrest : t.IsScalar → Parted rest) :
    tokensFrom .blank done (form ++ rest) = tokensFrom .blank (t :: done) rest := by
  cases h with
  | null => exact gives_null done rest
  | bool b => exact gives_bool b done rest
  | number h => exact h.givesParted done rest (hrest trivial)
  | string h => exact tokensFrom_quoted h done rest
  | _ => rfl

theorem parted_of_isBlank (h : IsBlank b) (hrest : Parted rest) : Parted (b ++ rest) := by
  cases b with
  | nil => exact hrest
  | cons g b =>
    obtain ⟨c, hc, rfl⟩ := h g List.mem_cons_self
    rintro d ⟨⟩
    exact not_isNumberChar_of_start (start_blank hc)

theorem parted_form (h : t.Form form) (ht : ¬ t.IsScalar) : Parted (form ++ rest) := by
  cases h with
  | null => exact absurd trivial ht
  | bool b => exact absurd trivial ht
  | number _ => exact absurd trivial ht
  | string _ => exact absurd trivial ht
  | _ => rintro c ⟨⟩; decide

theorem Spells.parted (h : Spells ts s) (hts : ∀ t ∈ ts.head?, ¬ t.IsScalar) : Parted s := by
  cases h with
  | nil hb =>
    have hparted := parted_of_isBlank hb (show Parted [] from nofun)
    rwa [List.append_nil] at hparted
  | cons hb hform _ => exact parted_of_isBlank hb (parted_form hform (hts _ rfl))

theorem Spells.tokensFrom_eq (h : Spells ts s) (hts : ts.IsChain Token.Apart)
    (done : List Token) : tokensFrom .blank done s = some (done.reverse ++ ts) := by
  induction h generalizing done with
  | @nil b hb =>
    have hblank := tokensFrom_blank hb done []
    rw [List.append_nil] at hblank
    rw [hblank]
    rfl
  | @cons t ts b form rest hb hform hrest ih =>
    obtain ⟨hnext, hchain⟩ := List.isChain_cons.mp hts
    have hparted (ht : t.IsScalar) : Parted rest := hrest.parted fun u hu ↦ hnext u hu ht
    rw [tokensFrom_blank hb, tokensFrom_form hform hparted, ih hchain, List.reverse_cons,
      List.append_assoc, List.singleton_append]

theorem isChain_append_cons (ht : ¬ t.IsScalar) (hts : ts.IsChain Token.Apart)
    (hus : us.IsChain Token.Apart) : (ts ++ t :: us).IsChain Token.Apart := by
  have hafter : (t :: us).IsChain Token.Apart :=
    List.isChain_cons.mpr ⟨fun u _ h ↦ absurd h ht, hus⟩
  refine List.isChain_append.mpr ⟨hts, hafter, fun u _ v hv _ ↦ ?_⟩
  obtain rfl : t = v := Option.some.inj hv
  exact ht

theorem isChain_intercalate {l : List (List Token)} (h : ∀ ts ∈ l, ts.IsChain Token.Apart) :
    ([.comma].intercalate l).IsChain Token.Apart := by
  induction l with
  | nil => exact .nil
  | cons ts l ih =>
    obtain ⟨hts, hl⟩ := List.forall_mem_cons.mp h
    cases l with
    | nil => rwa [List.intercalate_singleton]
    | cons us l =>
      rw [List.intercalate_cons_cons, List.append_assoc, List.singleton_append]
      exact isChain_append_cons id hts (ih hl)

theorem isChain_tokens (j : Json) : j.tokens.IsChain Token.Apart := by
  have hblock {opening closing : Token} {ts : List Token} (ho : ¬ opening.IsScalar)
      (hc : ¬ closing.IsScalar) (h : ts.IsChain Token.Apart) :
      (opening :: ts ++ [closing]).IsChain Token.Apart :=
    isChain_append_cons hc (isChain_append_cons ho .nil h) .nil
  induction j using nestedInduction with
  | array items ih =>
    rw [tokens, itemTokens_eq_map]
    exact hblock id id (isChain_intercalate (List.forall_mem_map.mpr ih))
  | object members ih =>
    rw [tokens, memberTokens_eq_map]
    refine hblock id id (isChain_intercalate (List.forall_mem_map.mpr fun m hm ↦ ?_))
    have hkey : [Token.scalar (.string m.1)].IsChain Token.Apart := .singleton _
    exact isChain_append_cons id hkey (ih m hm)
  | _ => exact .singleton _

theorem ofGlyphs?_of_spelled {j : Json} (h : Spelled j s) : ofGlyphs? s = some j := by
  have htokens := h.tokensFrom_eq (isChain_tokens j) []
  rw [List.reverse_nil, List.nil_append] at htokens
  rw [ofGlyphs?, tokens?, htokens, Option.bind_some, ofTokens?_tokens]

end Tokens

end HookPatch.Json
