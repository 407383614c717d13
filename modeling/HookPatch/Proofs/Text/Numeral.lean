import HookPatch.Proofs.Outcomes
import HookPatch.Text.Numeral
import Std.Data.String.ToInt
import Std.Data.String.ToNat

namespace HookPatch.Text

variable {limit n : Nat} {beyond : NumeralFault} {c : Char} {s : List Char}

theorem le_ofDigitChars (s : List Char) (n : Nat) : n ≤ Nat.ofDigitChars 10 s n := by
  rw [Nat.ofDigitChars_eq_ofDigitChars_zero]
  have hpos := Nat.le_mul_of_pos_left n (Nat.pow_pos (n := s.length) (show 0 < 10 by decide))
  omega

structure Digits (s : List Char) (n : Nat) : Prop where
  ne_nil : s ≠ []
  isDigit : ∀ c ∈ s, c.isDigit
  value : Nat.ofDigitChars 10 s 0 = n

inductive UnsignedNumeral : List Char → Nat → Prop
  | bare {s : List Char} {n : Nat} : Digits s n → UnsignedNumeral s n
  | plus {s : List Char} {n : Nat} : Digits s n → UnsignedNumeral ('+' :: s) n

inductive SignedNumeral : List Char → Int → Prop
  | unsigned {s : List Char} {n : Nat} : UnsignedNumeral s n → SignedNumeral s n
  | minus {s : List Char} {n : Nat} : Digits s n → SignedNumeral ('-' :: s) (-n)

theorem digits_toDigits (n : Nat) : Digits (Nat.toDigits 10 n) n where
  ne_nil := Nat.toDigits_ne_nil
  isDigit _ hc := Nat.isDigit_of_mem_toDigits (by decide) (by decide) hc
  value := Nat.ofDigitChars_ten_toDigits

theorem unsignedNumeral_toString (n : Nat) : UnsignedNumeral (toString n).toList n := by
  rw [Nat.toString_eq_repr, Nat.toList_repr]
  exact .bare (digits_toDigits n)

theorem signedNumeral_toString (m : Int) : SignedNumeral (toString m).toList m := by
  rw [Int.toString_eq_repr, Int.repr_eq_if]
  split
  · rename_i hpos
    obtain ⟨k, rfl⟩ := Int.eq_ofNat_of_zero_le hpos
    rw [Int.toNat_natCast, Nat.toList_repr]
    exact .unsigned (.bare (digits_toDigits k))
  · obtain ⟨k, rfl⟩ : ∃ k : Nat, m = -k := ⟨(-m).toNat, by omega⟩
    rw [Int.neg_neg, Int.toNat_natCast, String.toList_append, Nat.toList_repr]
    exact .minus (digits_toDigits k)

/-- The value of digits grows from digit to digit, so that it fits if and only if all of them do. -/
theorem readDigits_eq_ok_iff {m : Nat} (h : n ≤ limit) : readDigits limit beyond n s = .ok m ↔
    (∀ c ∈ s, c.isDigit) ∧ Nat.ofDigitChars 10 s n = m ∧ m ≤ limit := by
  induction s generalizing n with
  | nil =>
    rw [readDigits, Nat.ofDigitChars_nil, Except.ok.injEq]
    refine ⟨?_, fun ⟨_, heq, _⟩ ↦ heq⟩
    rintro rfl
    exact ⟨by simp, rfl, h⟩
  | cons c s ih =>
    rw [readDigits, digit?, Nat.ofDigitChars_cons, List.forall_mem_cons]
    by_cases hc : c.isDigit
    · by_cases hfits : 10 * n + (c.toNat - '0'.toNat) ≤ limit
      · simp only [hc, hfits, if_true, ih hfits, true_and]
      · have hgrows := le_ofDigitChars s (10 * n + (c.toNat - '0'.toNat))
        simp only [hc, hfits, if_true, if_false, reduceCtorEq, false_iff]
        omega
    · simp [hc]

theorem readMagnitude_eq_ok_iff :
    readMagnitude limit beyond s = .ok n ↔ Digits s n ∧ n ≤ limit := by
  rw [readMagnitude]
  by_cases hs : s = []
  · subst hs
    simp only [List.isEmpty_nil, if_true, reduceCtorEq, false_iff]
    exact fun h ↦ h.1.ne_nil rfl
  · rw [if_neg (by simpa using hs), readDigits_eq_ok_iff (Nat.zero_le _)]
    exact ⟨fun ⟨hdigits, hvalue, hle⟩ ↦ ⟨⟨hs, hdigits, hvalue⟩, hle⟩,
      fun ⟨h, hle⟩ ↦ ⟨h.isDigit, h.value, hle⟩⟩

theorem Digits.not_sign (h : Digits (c :: s) n) : c ≠ '+' ∧ c ≠ '-' := by
  have hc := h.isDigit c List.mem_cons_self
  refine ⟨?_, ?_⟩ <;>
  · rintro rfl
    exact absurd hc (by decide)

theorem readNat_eq_ok_iff : readNat limit s = .ok n ↔ UnsignedNumeral s n ∧ n ≤ limit := by
  rw [readNat.eq_def]
  split
  · refine ⟨nofun, ?_⟩
    rintro ⟨⟨h⟩ | h, -⟩
    exact absurd rfl h.ne_nil
  · rename_i s
    rw [readMagnitude_eq_ok_iff]
    refine and_congr_left fun _ ↦ ⟨.plus, ?_⟩
    rintro (h | h)
    · exact absurd rfl h.not_sign.1
    · exact h
  · rename_i hplus
    rw [readMagnitude_eq_ok_iff]
    refine and_congr_left fun _ ↦ ⟨.bare, ?_⟩
    rintro (h | h)
    · exact h
    · exact absurd rfl (hplus _)

theorem Digits.exists_cons (h : Digits s n) : ∃ c rest, s = c :: rest ∧ c.isDigit := by
  obtain ⟨c, rest, rfl⟩ := List.exists_cons_of_ne_nil h.ne_nil
  exact ⟨c, rest, rfl, h.isDigit c List.mem_cons_self⟩

theorem Digits.numberOf_eq (h : Digits s n) : numberOf 10 s = n := by
  have hfold (s : List Char) (hs : ∀ c ∈ s, c.isDigit) (m : Nat) :
      s.foldl (fun n c ↦ 10 * n + (hexDigit? c).getD 0) m = Nat.ofDigitChars 10 s m := by
    induction s generalizing m with
    | nil => rw [List.foldl_nil, Nat.ofDigitChars_nil]
    | cons c s ih =>
      obtain ⟨hc, hs⟩ := List.forall_mem_cons.mp hs
      rw [List.foldl_cons, ih hs, Nat.ofDigitChars_cons, hexDigit?, if_pos hc, Option.getD_some]
  rw [numberOf, hfold s h.isDigit, h.value]

theorem digitChar_ne_zero : ∀ d < 10, 0 < d → d.digitChar ≠ '0' := by decide

theorem head?_toDigits (h : 0 < n) : (Nat.toDigits 10 n).head? ≠ some '0' := by
  induction n using Nat.strongRecOn with
  | ind n ih =>
    by_cases hlt : n < 10
    · rw [Nat.toDigits_of_lt_base hlt, List.head?_singleton, ne_eq, Option.some.injEq]
      exact digitChar_ne_zero n hlt h
    · obtain ⟨c, rest, heq, -⟩ := (digits_toDigits (n / 10)).exists_cons
      have hhead := ih (n / 10) (by omega) (by omega)
      rw [heq] at hhead
      rw [Nat.toDigits_of_base_le (by decide) (by omega), heq]
      exact hhead

theorem readUInt16_eq_ok_iff {m : UInt16} : readUInt16 s = .ok m ↔ UnsignedNumeral s m.toNat := by
  rw [readUInt16, except_map_eq_ok_iff]
  constructor
  · rintro ⟨n, hread, rfl⟩
    obtain ⟨hs, hle⟩ := readNat_eq_ok_iff.mp hread
    rwa [UInt16.toNat_ofNat_of_lt' (Nat.lt_of_le_pred (by decide) hle)]
  · intro hs
    exact ⟨m.toNat, readNat_eq_ok_iff.mpr ⟨hs, Nat.le_pred_of_lt m.toNat_lt⟩, UInt16.ofNat_toNat⟩

theorem UnsignedNumeral.head?_ne (h : UnsignedNumeral s n) : s.head? ≠ some '-' := by
  cases h with
  | bare h =>
    cases s with
    | nil => exact absurd rfl h.ne_nil
    | cons c s => exact fun heq ↦ h.not_sign.2 (Option.some.inj heq)
  | plus h => exact nofun

/-- A count that is read as an integer and then put into a fixed width. -/
theorem map_natCast_eq_ok_iff {x : Except NumeralFault Nat} {f : Int → Int64} {m : Int64} :
    Except.map f (do let n ← x; pure n) = .ok m ↔ ∃ n : Nat, x = .ok n ∧ f n = m := by
  cases x with
  | error cause => exact ⟨nofun, fun ⟨_, heq, _⟩ ↦ nomatch heq⟩
  | ok n =>
    constructor
    · rintro ⟨⟩
      exact ⟨n, rfl, rfl⟩
    · rintro ⟨_, ⟨⟩, rfl⟩
      rfl

theorem readInt64_eq_ok_iff {m : Int64} : readInt64 s = .ok m ↔ SignedNumeral s m.toInt := by
  have hmin : Int64.minValue.toInt.natAbs = 2 ^ 63 := rfl
  have hmax : Int64.maxValue.toInt.natAbs = 2 ^ 63 - 1 := rfl
  have hbounds := And.intro m.le_toInt m.toInt_lt
  rw [readInt64.eq_def]
  split
  · rename_i rest
    rw [map_natCast_eq_ok_iff]
    constructor
    · rintro ⟨n, hread, rfl⟩
      obtain ⟨hs, hle⟩ := readMagnitude_eq_ok_iff.mp hread
      rw [Int64.toInt_ofInt_of_le (by omega) (by omega)]
      exact .minus hs
    · generalize hvalue : m.toInt = value at hbounds
      rintro (h | @⟨_, n, h⟩)
      · exact absurd rfl h.head?_ne
      · refine ⟨n, readMagnitude_eq_ok_iff.mpr ⟨h, by omega⟩, ?_⟩
        rw [← hvalue, Int64.ofInt_toInt]
  · rename_i hsign
    rw [map_natCast_eq_ok_iff]
    constructor
    · rintro ⟨n, hread, rfl⟩
      obtain ⟨hs, hle⟩ := readNat_eq_ok_iff.mp hread
      rw [Int64.toInt_ofInt_of_le (by omega) (by omega)]
      exact .unsigned hs
    · generalize hvalue : m.toInt = value at hbounds
      rintro (@⟨_, n, h⟩ | h)
      · refine ⟨n, readNat_eq_ok_iff.mpr ⟨h, by omega⟩, ?_⟩
        rw [← hvalue, Int64.ofInt_toInt]
      · exact absurd rfl (hsign _)

end HookPatch.Text
