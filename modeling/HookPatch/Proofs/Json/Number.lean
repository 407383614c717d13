import HookPatch.Json.Token
import HookPatch.Json.Writer
import HookPatch.Proofs.Text.Numeral
import Mathlib.Data.List.TakeWhile
import Mathlib.Data.Option.Basic

namespace HookPatch.Json

open Text

def signed (negative : Bool) (n : Nat) : List Char :=
  (if negative then ['-'] else []) ++ Nat.toDigits 10 n

variable {s t : List Char} {c : Char}

theorem toList_toString_int (n : Int) : (toString n).toList = signed (n < 0) n.natAbs := by
  rw [Int.toString_eq_repr, Int.repr_eq_if, signed]
  split
  · rename_i hpos
    have habs : n.toNat = n.natAbs := by omega
    rw [Nat.toList_repr, if_neg (by simpa using hpos), List.nil_append, habs]
  · rename_i hneg
    have habs : (-n).toNat = n.natAbs := by omega
    rw [String.toList_append, Nat.toList_repr, if_pos (by simpa using hneg), habs]
    rfl

theorem natAbs_signed (n : Int) :
    (if decide (n < 0) = true then -(n.natAbs : Int) else n.natAbs) = n := by
  simp only [decide_eq_true_eq]
  split <;> omega

theorem toList_decimalLiteral (d : Decimal) : (decimalLiteral d).toList =
    signed d.negative d.digits ++ 'e' :: (toString d.exponent).toList := by
  rw [decimalLiteral, signed]
  cases d.negative <;> simp

theorem toDigits_append_ne_cons (n : Nat) (t : List Char) (hc : ¬ c.isDigit) (s : List Char) :
    Nat.toDigits 10 n ++ t ≠ c :: s := by
  obtain ⟨d, rest, hcons, hdigit⟩ := (digits_toDigits n).exists_cons
  rw [hcons]
  rintro ⟨⟩
  exact hc hdigit

/-- A number that starts with printed digits has these as its whole part. -/
theorem number?_signed (negative : Bool) (n : Nat) {fraction : Option (List Char)}
    {exponent : Option Int} (ht : ∀ c ∈ t.head?, ¬ c.isDigit)
    (hfraction : fraction? t = some (fraction, s)) (hexponent : exponent? s = some exponent) :
    number? (signed negative n ++ t) =
      if fraction.isNone && exponent.isNone && !(negative && n = 0) then
        some (.integer (if negative then -n else n))
      else
        some (.decimal ⟨negative, numberOf 10 (Nat.toDigits 10 n ++ fraction.getD []),
          exponent.getD 0 - (fraction.getD []).length⟩) := by
  have hdigits := (digits_toDigits n).isDigit
  -- The digits end where `t` starts, since it starts with something else.
  have hwhole : (Nat.toDigits 10 n ++ t).takeWhile Char.isDigit = Nat.toDigits 10 n := by
    rw [List.takeWhile_append_of_pos hdigits]
    cases t with
    | nil => rw [List.takeWhile_nil, List.append_nil]
    | cons c t => rw [List.takeWhile_cons_of_neg (ht c rfl), List.append_nil]
  have hrest : (Nat.toDigits 10 n ++ t).dropWhile Char.isDigit = t := by
    rw [List.dropWhile_append_of_pos hdigits]
    cases t with
    | nil => rfl
    | cons c t => exact List.dropWhile_cons_of_neg (ht c rfl)
  have hguard : guard (!(Nat.toDigits 10 n).isEmpty &&
      ((Nat.toDigits 10 n).head? ≠ some '0' || (Nat.toDigits 10 n).length = 1)) = some () := by
    refine (Option.guard_eq_some' ()).mpr ?_
    rcases Nat.eq_zero_or_pos n with rfl | hpos
    · rfl
    · simp [head?_toDigits hpos]
  have hsign : ∀ s, Nat.toDigits 10 n ++ t ≠ '-' :: s := toDigits_append_ne_cons n t (by decide)
  cases negative <;>
    simp only [signed, number?, Bool.false_eq_true, if_false, if_true, List.nil_append,
      List.cons_append, hwhole, hrest, hguard, (digits_toDigits _).numberOf_eq, hfraction, hexponent,
      Option.bind_eq_bind, Option.bind_some] <;>
    rfl

theorem isNumberChar_of_isDigit (h : c.isDigit) : isNumberChar c := by
  simp [isNumberChar, h]

theorem isNumberChar_signed (negative : Bool) (n : Nat) :
    ∀ c ∈ signed negative n, isNumberChar c := by
  have hdigits := (digits_toDigits n).isDigit
  rw [signed, List.forall_mem_append]
  refine ⟨?_, fun c hc ↦ isNumberChar_of_isDigit (hdigits c hc)⟩
  cases negative <;> simp [isNumberChar]

end HookPatch.Json
