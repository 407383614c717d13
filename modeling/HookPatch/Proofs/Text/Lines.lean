import HookPatch.Text.Lines
import HookPatch.Text.Substitution
import Mathlib.Data.List.Basic

namespace HookPatch.Text

/-- A text that can be a line: it has no line end in it, and none could be read into its end. -/
structure IsLine (s : List Char) : Prop where
  ne_nil : s ≠ []
  no_feed : '\n' ∉ s
  no_return : s.getLast? ≠ some '\r'

theorem linesAfter_append {s : List Char} (h : '\n' ∉ s) (held t : List Char) :
    linesAfter held (s ++ t) = linesAfter (s.reverse ++ held) t := by
  induction s generalizing held with
  | nil => rfl
  | cons c s ih =>
    rw [List.mem_cons, not_or] at h
    rw [List.cons_append, linesAfter, if_neg (Ne.symm h.1), ih h.2, List.reverse_cons,
      List.append_assoc, List.singleton_append]

theorem linesAfter_feed (held s t : List Char) :
    linesAfter held (s ++ '\n' :: t) = linesAfter held (s ++ ['\n']) ++ lines t := by
  induction s generalizing held with
  | nil => rfl
  | cons c s ih =>
    rw [List.cons_append, List.cons_append, linesAfter, linesAfter]
    split
    · rw [ih, List.cons_append]
    · exact ih (c :: held)

theorem length_linesAfter_feed (held s : List Char) :
    (linesAfter held (s ++ ['\n'])).length = s.count '\n' + 1 := by
  induction s generalizing held with
  | nil => rfl
  | cons c s ih =>
    rw [List.cons_append, linesAfter, List.count_cons]
    split
    · rename_i hc
      rw [List.length_cons, ih, hc, beq_self_eq_true, if_pos rfl]
    · rename_i hc
      rw [ih, beq_false_of_ne hc, if_neg Bool.false_ne_true]

theorem lines_of_not_mem {s : List Char} (hs : s ≠ []) (h : '\n' ∉ s) : lines s = [s] := by
  have happend := linesAfter_append h [] []
  rw [List.append_nil, List.append_nil] at happend
  rw [lines, happend, linesAfter, if_neg (by simpa using hs), List.reverse_reverse]

namespace IsLine

variable {s : List Char} (h : IsLine s)

include h

theorem endLine_reverse : endLine s.reverse = s := by
  unfold endLine
  split
  · rename_i held heq
    have hlast := congrArg List.head? heq
    rw [List.head?_reverse] at hlast
    exact absurd hlast h.no_return
  · exact List.reverse_reverse s

theorem lines_append (t : List Char) : lines (s ++ '\n' :: t) = s :: lines t := by
  rw [lines, linesAfter_append h.no_feed, linesAfter, if_pos rfl, List.append_nil,
    h.endLine_reverse]
  rfl

theorem lines_self : lines s = [s] := lines_of_not_mem h.ne_nil h.no_feed

end IsLine

theorem lines_intercalate {ls : List (List Char)} (h : ∀ s ∈ ls, IsLine s) :
    lines (['\n'].intercalate ls) = ls := by
  induction ls with
  | nil => rfl
  | cons s ls ih =>
    have hs : IsLine s := h s List.mem_cons_self
    have hls := ih fun t ht ↦ h t (List.mem_cons_of_mem _ ht)
    cases ls with
    | nil => rw [List.intercalate_singleton, hs.lines_self]
    | cons t ls =>
      rw [List.intercalate_cons_cons, List.append_assoc, List.singleton_append, hs.lines_append, hls]

section Token

variable {c : Char}

theorem replaceFrom_drop (token new s : List Char) (skip : Nat) :
    replaceFrom token new skip s = replaceFrom token new 0 (s.drop skip) := by
  induction s generalizing skip with
  | nil => rw [List.drop_nil, replaceFrom, replaceFrom]
  | cons d s ih =>
    cases skip with
    | zero => rfl
    | succ skip => rw [replaceFrom, ih, List.drop_succ_cons]

theorem replaceFrom_append {s : List Char} (h : c ∉ s) (token new t : List Char) :
    replaceFrom (c :: token) new 0 (s ++ t) = s ++ replaceFrom (c :: token) new 0 t := by
  induction s with
  | nil => rfl
  | cons d s ih =>
    rw [List.mem_cons, not_or] at h
    have hstarts : (c :: token).isPrefixOf (d :: (s ++ t)) = false := by
      rw [List.isPrefixOf, beq_false_of_ne h.1, Bool.false_and]
    rw [List.cons_append, replaceFrom, if_neg (by simp [hstarts]), ih h.2, List.cons_append]

/-- A token is found where it is, if its first character does not occur before and behind it. -/
theorem replaceAll_once {s t : List Char} (hs : c ∉ s) (ht : c ∉ t) (token new : List Char) :
    replaceAll (c :: token) new (s ++ (c :: token) ++ t) = s ++ new ++ t := by
  have hstarts : (c :: token).isPrefixOf (c :: (token ++ t)) := by
    rw [List.isPrefixOf_iff_prefix]
    exact List.prefix_append (c :: token) t
  have hrest : replaceFrom (c :: token) new 0 t = t := by
    have happend := replaceFrom_append ht token new []
    rwa [List.append_nil, replaceFrom, List.append_nil] at happend
  rw [replaceAll, if_neg (by simp), List.append_assoc, replaceFrom_append hs, List.cons_append,
    replaceFrom, if_pos hstarts, replaceFrom_drop]
  simp [hrest]

end Token

end HookPatch.Text
