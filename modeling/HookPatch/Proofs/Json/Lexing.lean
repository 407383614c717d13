import HookPatch.Proofs.Json.Number

namespace HookPatch.Json

open Text

/-- Whether what follows could not go on with a number. -/
def Parted (rest : List Glyph) : Prop := ∀ c, rest.head? = some (some c) → ¬ isNumberChar c

/-- Whether a text gives some tokens, wherever it stands between tokens. -/
def Gives (s : List Char) (ts : List Token) : Prop :=
  ∀ done rest, tokensFrom .blank done (s.map some ++ rest) =
    tokensFrom .blank (ts.reverse ++ done) rest

/-- Whether a text gives some tokens when it does not run into a number. -/
def GivesParted (s : List Char) (ts : List Token) : Prop :=
  ∀ done rest, Parted rest → tokensFrom .blank done (s.map some ++ rest) =
    tokensFrom .blank (ts.reverse ++ done) rest

variable {s t : List Char} {ts : List Token} {c : Char}

theorem start_number (h : c = '-' ∨ c.isDigit) : start c = some (.number [c], []) := by
  rcases h with rfl | hdigit
  · rfl
  · have hne (d : Char) (hd : ¬ d.isDigit) : c ≠ d := fun heq ↦ hd (heq ▸ hdigit)
    simp [start, hdigit, hne ' ' (by decide), hne '\t' (by decide), hne '\n' (by decide),
      hne '\r' (by decide), hne '[' (by decide), hne ']' (by decide), hne '\x7b' (by decide),
      hne '\x7d' (by decide), hne ':' (by decide), hne ',' (by decide), hne '"' (by decide),
      hne 'n' (by decide), hne 't' (by decide), hne 'f' (by decide)]

theorem not_isNumberChar_of_start (h : start c = some (.blank, ts)) : ¬ isNumberChar c := by
  intro hc
  simp only [isNumberChar, Bool.or_eq_true, decide_eq_true_eq] at hc
  rcases hc with ((((hdigit | rfl) | rfl) | rfl) | rfl) | rfl
  · rw [start_number (.inr hdigit)] at h
    cases h
  all_goals cases h

theorem gives_null : Gives "null".toList [.scalar .null] := fun _ _ ↦ rfl

theorem gives_bool (b : Bool) :
    Gives (if b then "true" else "false").toList [.scalar (.bool b)] := by
  cases b <;> exact fun _ _ ↦ rfl

theorem hexDigit?_digitChar : ∀ n < 16, hexDigit? n.digitChar = some n := by decide

variable {negative : Bool} {n : Nat} {j : Json}

theorem tokensFrom_number (hs : ∀ c ∈ s, isNumberChar c) (held : List Char) (done : List Token)
    (rest : List Glyph) :
    tokensFrom (.number held) done (s.map some ++ rest) =
      tokensFrom (.number (s.reverse ++ held)) done rest := by
  induction s generalizing held with
  | nil => rfl
  | cons c s ih =>
    obtain ⟨hc, hs⟩ := List.forall_mem_cons.mp hs
    rw [List.map_cons, List.cons_append, tokensFrom, Mode.step, if_pos hc]
    exact (ih hs _).trans (by rw [List.reverse_cons, List.append_assoc, List.singleton_append])

theorem tokensFrom_number_end {held : List Char} (hnumber : number? held.reverse = some j)
    (done : List Token) {rest : List Glyph} (hrest : Parted rest) :
    tokensFrom (.number held) done rest = tokensFrom .blank (.scalar j :: done) rest := by
  cases rest with
  | nil => simp [tokensFrom, Mode.finish, hnumber]
  | cons g rest =>
    cases g with
    | none => rfl
    | some c =>
      have hc : ¬ isNumberChar c := hrest c rfl
      simp only [tokensFrom, Mode.step, hc, hnumber, Option.bind_some]
      cases start c with
      | none => rfl
      | some result => simp [pure]

theorem givesParted_signed (ht : ∀ c ∈ t, isNumberChar c)
    (h : number? (signed negative n ++ t) = some j) :
    GivesParted (signed negative n ++ t) [.scalar j] := by
  intro done rest hrest
  obtain ⟨c, s, hcons, hc⟩ : ∃ c s, signed negative n ++ t = c :: s ∧ (c = '-' ∨ c.isDigit) := by
    cases negative with
    | false =>
      obtain ⟨c, s, hcons, hdigit⟩ := (digits_toDigits n).exists_cons
      exact ⟨c, s ++ t, by rw [signed, hcons]; rfl, .inr hdigit⟩
    | true => exact ⟨'-', Nat.toDigits 10 n ++ t, rfl, .inl rfl⟩
  have hs : ∀ c ∈ s, isNumberChar c := by
    have hall := List.forall_mem_append.mpr ⟨isNumberChar_signed negative n, ht⟩
    rw [hcons] at hall
    exact (List.forall_mem_cons.mp hall).2
  rw [hcons] at h ⊢
  rw [List.map_cons, List.cons_append, tokensFrom, Mode.step, Option.bind_some, start_number hc]
  have hheld : number? (s.reverse ++ [c]).reverse = some j := by simpa using h
  exact (tokensFrom_number hs _ _ _).trans (tokensFrom_number_end hheld done hrest)

end HookPatch.Json
