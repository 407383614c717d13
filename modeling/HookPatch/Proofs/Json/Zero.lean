import HookPatch.Json.Reader
import Mathlib.Tactic.SplitIfs

namespace HookPatch.Json

/-- Whether the word that a reader may be in the middle of has no zero character. -/
def Mode.WordsClean : Mode → Prop
  | word next rest _ => '\x00' ∉ next :: rest
  | _ => True

theorem eq_or_of_ite_eq_some {α : Type} {p : Prop} [Decidable p] {a b : α} {o : Option α}
    (h : (if p then some a else o) = some b) : a = b ∨ o = some b := by
  split at h
  · exact .inl (Option.some.inj h)
  · exact .inr h

theorem start_clean {c : Char} {mode : Mode} {tokens : List Token}
    (h : start c = some (mode, tokens)) : mode.WordsClean := by
  rw [start] at h
  iterate 12
    rcases eq_or_of_ite_eq_some h with heq | h
    · cases heq
      first
        | trivial
        | rw [Mode.WordsClean]; decide
  cases h

namespace Mode

theorem step_clean {mode mode' : Mode} {g : Glyph} {tokens : List Token} (hclean : mode.WordsClean)
    (h : mode.step g = some (mode', tokens)) : mode'.WordsClean := by
  cases mode with
  | blank =>
    obtain ⟨c, -, hstart⟩ := Option.bind_eq_some_iff.mp h
    exact start_clean hstart
  | word next rest value =>
    cases rest with
    | nil =>
      simp only [step] at h
      split at h <;> cases h
      trivial
    | cons c rest =>
      simp only [step] at h
      split at h <;> cases h
      exact fun hmem ↦ hclean (List.mem_cons_of_mem _ hmem)
  | number held =>
    cases g with
    | none => cases h
    | some c =>
      simp only [step] at h
      split at h
      · cases h
        trivial
      · obtain ⟨value, -, h⟩ := Option.bind_eq_some_iff.mp h
        obtain ⟨⟨mode, ts⟩, hstart, h⟩ := Option.bind_eq_some_iff.mp h
        cases h
        exact start_clean hstart
  | literal s =>
    cases g with
    | none =>
      cases h
      trivial
    | some c =>
      simp only [step] at h
      split_ifs at h <;> cases h <;> trivial
  | escape s =>
    obtain ⟨c, -, h⟩ := Option.bind_eq_some_iff.mp h
    obtain ⟨mode, hescaped, h⟩ := Option.map_eq_some_iff.mp h
    cases h
    rw [escaped] at hescaped
    split_ifs at hescaped <;> cases hescaped <;> trivial
  | unit s left n =>
    obtain ⟨c, -, h⟩ := Option.bind_eq_some_iff.mp h
    obtain ⟨digit, -, h⟩ := Option.bind_eq_some_iff.mp h
    cases left <;> cases h <;> trivial

theorem step_zero {mode : Mode} (hclean : mode.WordsClean) : mode.step (some '\x00') = none := by
  cases mode with
  | blank => rfl
  | word next rest value =>
    have hne : next ≠ '\x00' := fun h ↦ hclean (by rw [h]; exact List.mem_cons_self)
    simp [step, hne.symm]
  | number held =>
    have hstart : start '\x00' = none := rfl
    have hdigit : isNumberChar '\x00' = false := rfl
    simp [step, hstart, hdigit]
  | literal s => rfl
  | escape s => rfl
  | unit s left n => rfl

end Mode

theorem zero_not_mem_of_tokensFrom {mode : Mode} {done tokens : List Token} {s : List Glyph}
    (hclean : mode.WordsClean) (h : tokensFrom mode done s = some tokens) : some '\x00' ∉ s := by
  induction s generalizing mode done with
  | nil => simp
  | cons g rest ih =>
    rw [tokensFrom] at h
    cases hstep : mode.step g with
    | none => simp [hstep] at h
    | some result =>
      obtain ⟨mode', ts⟩ := result
      rw [hstep] at h
      have hrest := ih (mode.step_clean hclean hstep) h
      have hg : some '\x00' ≠ g := by
        rintro rfl
        rw [mode.step_zero hclean] at hstep
        cases hstep
      simp [hg, hrest]

theorem zero_not_mem_of_ofText? {s : String} {j : Json} (h : ofText? s = some j) :
    '\x00' ∉ s.toList := by
  rw [ofText?, ofGlyphs?, Option.bind_eq_some_iff] at h
  obtain ⟨tokens, htokens, -⟩ := h
  have hclean : Mode.blank.WordsClean := trivial
  have hs := zero_not_mem_of_tokensFrom hclean htokens
  simpa [glyphsOfText] using hs

end HookPatch.Json
