import HookPatch.Text.Blank
import Mathlib.Data.List.Basic
import Mathlib.Data.List.TakeWhile

namespace HookPatch.Text

variable {s t before after : List Char} {c : Char}

theorem toNat_of_isBlank (h : isBlank c) : c.toNat ≤ 32 ∨ 127 < c.toNat := by
  simp only [isBlank, Bool.or_eq_true, Bool.and_eq_true, decide_eq_true_eq, Char.le_def,
    UInt32.le_iff_toNat_le] at h
  rcases h with ((((((((((⟨-, h⟩ | rfl) | rfl) | rfl) | rfl) | ⟨h, -⟩) | rfl) | rfl) | rfl) | rfl) | rfl)
  · exact .inl (Nat.le_trans h (by decide))
  all_goals first
    | exact .inr (Nat.lt_of_lt_of_le (by decide) h)
    | decide

/-- Whether a text is not empty and has no blank at its start or end. -/
def Tight (s : List Char) : Prop :=
  ∃ c, s.head? = some c ∧ ¬ isBlank c ∧ ∃ d, s.getLast? = some d ∧ ¬ isBlank d

theorem tight_of_forall (hs : s ≠ []) (h : ∀ c ∈ s, ¬ isBlank c) : Tight s :=
  ⟨s.head hs, List.head?_eq_some_head hs, h _ (List.head_mem hs), s.getLast hs,
    List.getLast?_eq_some_getLast hs, h _ (List.getLast_mem hs)⟩

theorem tight_singleton {c : Char} (h : ¬ isBlank c) : Tight [c] :=
  ⟨c, rfl, h, c, rfl, h⟩

theorem Tight.append (hs : Tight s) (ht : Tight t) (between : List Char) :
    Tight (s ++ between ++ t) := by
  obtain ⟨c, hhead, hc, -⟩ := hs
  obtain ⟨-, -, -, d, hlast, hd⟩ := ht
  refine ⟨c, ?_, hc, d, ?_, hd⟩
  · rw [List.append_assoc, List.head?_append, hhead, Option.some_or]
  · rw [List.getLast?_append, hlast, Option.some_or]

theorem not_isBlank_of_mem_head? (h : c ∈ (s.dropWhile isBlank).head?) : ¬ isBlank c := by
  have hnot := List.head?_dropWhile_not isBlank s
  rw [Option.mem_def.mp h] at hnot
  simpa using hnot

theorem trimEnd_prefix (s : List Char) : trimEnd s <+: s := by
  have hsuffix := List.dropWhile_suffix (l := s.reverse) isBlank
  rwa [← List.reverse_prefix, List.reverse_reverse] at hsuffix

theorem tight_trim (h : trim s ≠ []) : Tight (trim s) := by
  obtain ⟨t, ht⟩ := trimEnd_prefix (trimStart s)
  rw [trim] at h ⊢
  refine ⟨_, List.head?_eq_some_head h, ?_, _, List.getLast?_eq_some_getLast h, ?_⟩
  · refine not_isBlank_of_mem_head? (s := s) ?_
    have hhead := congrArg List.head? ht
    rw [List.head?_append, List.head?_eq_some_head h, Option.some_or] at hhead
    exact hhead.symm
  · refine not_isBlank_of_mem_head? (s := (trimStart s).reverse) ?_
    exact (List.getLast?_reverse ..).symm.trans (List.getLast?_eq_some_getLast h)

def AllBlank (s : List Char) : Prop := ∀ c ∈ s, isBlank c

theorem allBlank_nil : AllBlank [] := fun _ hc ↦ absurd hc List.not_mem_nil

theorem AllBlank.append (hs : AllBlank s) (ht : AllBlank t) : AllBlank (s ++ t) :=
  List.forall_mem_append.mpr ⟨hs, ht⟩

theorem AllBlank.trim_eq (h : AllBlank s) : trim s = [] := by
  rw [trim, trimStart, List.dropWhile_eq_nil_iff.mpr h]
  rfl

/-- Blanks around a text are taken away, and no more than these. -/
theorem trim_append (hbefore : AllBlank before) (hs : Tight s) (hafter : AllBlank after) :
    trim (before ++ s ++ after) = s := by
  obtain ⟨c, hhead, hc, d, hlast, hd⟩ := hs
  have hstart : trimStart (before ++ s ++ after) = s ++ after := by
    obtain ⟨s, rfl⟩ := List.head?_eq_some_iff.mp hhead
    rw [trimStart, List.append_assoc, List.dropWhile_append_of_pos hbefore, List.cons_append,
      List.dropWhile_cons_of_neg hc]
  have hreverse : ∀ c ∈ after.reverse, isBlank c := fun c hc ↦ hafter c (List.mem_reverse.mp hc)
  obtain ⟨s, rfl⟩ := List.getLast?_eq_some_iff.mp hlast
  rw [trim, hstart, trimEnd, List.reverse_append, List.dropWhile_append_of_pos hreverse,
    List.reverse_concat, List.dropWhile_cons_of_neg hd, List.reverse_cons, List.reverse_reverse]

theorem Tight.trim_eq (h : Tight s) : trim s = s := by
  have htrim := trim_append allBlank_nil h allBlank_nil
  rwa [List.nil_append, List.append_nil] at htrim

theorem Tight.ne_nil (h : Tight s) : s ≠ [] := by
  rintro rfl
  obtain ⟨c, hhead, -⟩ := h
  cases hhead

theorem Tight.left_eq_nil (h : Tight (t ++ s)) (ht : AllBlank t) : t = [] := by
  obtain ⟨c, hhead, hc, -⟩ := h
  by_contra hne
  rw [List.head?_append, List.head?_eq_some_head hne, Option.some_or] at hhead
  exact hc (ht c (Option.some.inj hhead ▸ List.head_mem hne))

theorem Tight.right_eq_nil (h : Tight (s ++ t)) (ht : AllBlank t) : t = [] := by
  obtain ⟨-, -, -, d, hlast, hd⟩ := h
  by_contra hne
  rw [List.getLast?_append, List.getLast?_eq_some_getLast hne, Option.some_or] at hlast
  exact hd (ht d (Option.some.inj hlast ▸ List.getLast_mem hne))

theorem exists_trim (s : List Char) :
    ∃ before after, AllBlank before ∧ AllBlank after ∧ s = before ++ trim s ++ after := by
  have hend : ∀ t, ∃ after, AllBlank after ∧ t = trimEnd t ++ after := by
    intro t
    refine ⟨(t.reverse.takeWhile isBlank).reverse, fun c hc ↦ ?_, ?_⟩
    · exact List.mem_takeWhile_imp (List.mem_reverse.mp hc)
    · rw [trimEnd, ← List.reverse_append, List.takeWhile_append_dropWhile, List.reverse_reverse]
  obtain ⟨after, hafter, heq⟩ := hend (trimStart s)
  refine ⟨s.takeWhile isBlank, after, fun c hc ↦ List.mem_takeWhile_imp hc, hafter, ?_⟩
  rw [List.append_assoc, trim, ← heq, trimStart, List.takeWhile_append_dropWhile]

theorem trim_eq_nil_iff : trim s = [] ↔ AllBlank s := by
  refine ⟨fun h ↦ ?_, AllBlank.trim_eq⟩
  obtain ⟨before, after, hbefore, hafter, heq⟩ := exists_trim s
  rw [heq, h, List.append_nil]
  exact hbefore.append hafter

theorem trim_trim (s : List Char) : trim (trim s) = trim s := by
  by_cases h : trim s = []
  · rw [h]; rfl
  · exact (tight_trim h).trim_eq

theorem trim_append_allBlank (s : List Char) (ht : AllBlank t) : trim (s ++ t) = trim s := by
  obtain ⟨before, after, hbefore, hafter, heq⟩ := exists_trim s
  by_cases h : trim s = []
  · rw [h]
    exact ((trim_eq_nil_iff.mp h).append ht).trim_eq
  · have htrim := trim_append hbefore (tight_trim h) (hafter.append ht)
    rwa [← List.append_assoc, ← heq] at htrim

theorem splitBlank_of_forall (h : ∀ c ∈ s, ¬ isBlank c) : splitBlank s = (s, []) := by
  have hs : ∀ c ∈ s, (!isBlank c) = true := fun c hc ↦ by simpa using h c hc
  rw [splitBlank, List.takeWhile_eq_self_iff.mpr hs, List.dropWhile_eq_nil_iff.mpr hs, List.drop_nil]

theorem splitBlank_append (h : ∀ c ∈ s, ¬ isBlank c) (hc : isBlank c) (t : List Char) :
    splitBlank (s ++ c :: t) = (s, t) := by
  have hs : ∀ c ∈ s, (!isBlank c) = true := fun c hc ↦ by simpa using h c hc
  rw [splitBlank, List.takeWhile_append_of_pos hs, List.dropWhile_append_of_pos hs]
  simp [hc]

theorem splitBlank_cases (s : List Char) : s = (splitBlank s).1 ∧ (splitBlank s).2 = [] ∨
    ∃ c, isBlank c ∧ s = (splitBlank s).1 ++ c :: (splitBlank s).2 := by
  have hsplit := List.takeWhile_append_dropWhile (p := fun c ↦ !isBlank c) (l := s)
  have hstop := List.head?_dropWhile_not (fun c ↦ !isBlank c) s
  rw [splitBlank]
  cases hrest : s.dropWhile fun c ↦ !isBlank c with
  | nil =>
    rw [hrest, List.append_nil] at hsplit
    exact .inl ⟨hsplit.symm, rfl⟩
  | cons c rest =>
    rw [hrest] at hsplit hstop
    exact .inr ⟨c, by simpa using hstop, hsplit.symm⟩

theorem splitAt?_append (h : c ∉ s) (t : List Char) : splitAt? c (s ++ c :: t) = some (s, t) := by
  have hs : ∀ d ∈ s, decide (d ≠ c) = true := fun d hd ↦ by
    rw [decide_eq_true_eq]
    rintro rfl
    exact h hd
  rw [splitAt?, List.takeWhile_append_of_pos hs, List.dropWhile_append_of_pos hs]
  simp

theorem eq_of_splitAt? (h : splitAt? c s = some (before, after)) : s = before ++ c :: after := by
  have hsplit := List.takeWhile_append_dropWhile (p := (decide <| · ≠ c)) (l := s)
  have hstop := List.head?_dropWhile_not (decide <| · ≠ c) s
  rw [splitAt?] at h
  split at h
  · cases h
  · rename_i d rest hrest
    rw [hrest] at hsplit hstop
    obtain rfl : d = c := by simpa using hstop
    cases h
    exact hsplit.symm

theorem stripLast?_concat (s : List Char) (c : Char) : stripLast? c (s ++ [c]) = some s := by
  rw [stripLast?, List.getLast?_concat, if_pos rfl, List.dropLast_concat]

theorem eq_of_stripLast? (h : stripLast? c s = some t) : s = t ++ [c] := by
  rw [stripLast?] at h
  split at h
  · rename_i hlast
    cases h
    obtain ⟨s, rfl⟩ := List.getLast?_eq_some_iff.mp hlast
    rw [List.dropLast_concat]
  · cases h

theorem stripStart?_eq_some_iff {start : List Char} : stripStart? start s = some t ↔ start ++ t = s :=
  List.isPrefixOf?_eq_some_iff_append_eq

theorem stripStart?_append (start s : List Char) : stripStart? start (start ++ s) = some s :=
  stripStart?_eq_some_iff.mpr rfl

end HookPatch.Text
