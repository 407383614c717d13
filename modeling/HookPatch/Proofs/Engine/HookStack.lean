import HookPatch.Engine.Hooks
import HookPatch.Proofs.Assembly.Strictness

namespace HookPatch

open Assembly

def CodeUnit.content (u : CodeUnit) :
    List Instruction × List Local × List String × UInt16 × UInt16 :=
  (u.body, u.locals, u.children, u.arity, u.localCount)

/-- The hooks of the unit `u`, each a source and its placeholder, and the bodies that they have made
of it, oldest first: one more than hooks. -/
structure HookStack (u : CodeUnit) (hooks : List (String × String)) (layers : List CodeUnit) :
    Prop where
  length : layers.length = hooks.length + 1
  counts : ∀ p ∈ layers, p.arity = u.arity ∧ p.localCount = u.localCount
  first : ∀ p ∈ layers.head?, p.content = u.content
  hooked : ∀ k source placeholder p q, hooks[k]? = some (source, placeholder) →
    layers[k]? = some p → layers[k + 1]? = some q →
    AssemblesTo (substitute placeholder p.name source) q.body ∧ q.locals = [] ∧ q.children = []

namespace HookStack

variable {u : CodeUnit} {hooks : List (String × String)} {layers : List CodeUnit}

theorem initial (u : CodeUnit) : HookStack u [] [u] where
  length := rfl
  counts p hp := by rw [List.mem_singleton.mp hp]; exact ⟨rfl, rfl⟩
  first p hp := by cases hp; rfl
  hooked k source placeholder p q hk := by simp at hk

theorem map (h : HookStack u hooks layers) {f : CodeUnit → CodeUnit}
    (hname : ∀ p, (f p).name = p.name) (hcontent : ∀ p, (f p).content = p.content) :
    HookStack u hooks (layers.map f) where
  length := by rw [List.length_map, h.length]
  counts p hp := by
    obtain ⟨p₀, hp₀, rfl⟩ := List.mem_map.mp hp
    have hcounts := h.counts p₀ hp₀
    have hf := hcontent p₀
    simp only [CodeUnit.content, Prod.mk.injEq] at hf
    exact ⟨hf.2.2.2.1.trans hcounts.1, hf.2.2.2.2.trans hcounts.2⟩
  first p hp := by
    rw [List.head?_map] at hp
    obtain ⟨p₀, hp₀, rfl⟩ := Option.map_eq_some_iff.mp hp
    exact (hcontent p₀).trans (h.first p₀ hp₀)
  hooked k source placeholder p q hk hp hq := by
    rw [List.getElem?_map] at hp hq
    obtain ⟨p₀, hp₀, rfl⟩ := Option.map_eq_some_iff.mp hp
    obtain ⟨q₀, hq₀, rfl⟩ := Option.map_eq_some_iff.mp hq
    have hf := hcontent q₀
    simp only [CodeUnit.content, Prod.mk.injEq] at hf
    rw [hname, hf.1, hf.2.1, hf.2.2.1]
    exact h.hooked k source placeholder p₀ q₀ hk hp₀ hq₀

theorem move {ps : List CodeUnit} {top p : CodeUnit} (h : HookStack u hooks (ps ++ [top]))
    (hp : p.content = top.content) : HookStack u hooks (ps ++ [p]) := by
  have hlength : ps.length = hooks.length := by simpa using h.length
  simp only [CodeUnit.content, Prod.mk.injEq] at hp
  refine ⟨by simpa using h.length, ?_, ?_, ?_⟩
  · intro q hq
    rcases List.mem_append.mp hq with hq | hq
    · exact h.counts q (List.mem_append_left _ hq)
    · obtain rfl := List.mem_singleton.mp hq
      have htop := h.counts top (by simp)
      exact ⟨hp.2.2.2.1.trans htop.1, hp.2.2.2.2.trans htop.2⟩
  · intro q hq
    cases ps with
    | nil =>
      cases hq
      exact (by simp only [CodeUnit.content, hp] : p.content = top.content).trans (h.first top rfl)
    | cons p₁ ps => exact h.first q hq
  · intro k source placeholder p' q hk hp' hq
    have hlt : k < ps.length := by
      rw [hlength]; exact (List.getElem?_eq_some_iff.mp hk).1
    rw [List.getElem?_append_left hlt] at hp'
    have hold := h.hooked k source placeholder p'
    rw [List.getElem?_append_left hlt] at hold
    by_cases hnext : k + 1 < ps.length
    · rw [List.getElem?_append_left hnext] at hq hold
      exact hold q hk hp' hq
    · obtain hlast : k + 1 = ps.length := by omega
      rw [hlast, List.getElem?_concat_length] at hq hold
      cases hq
      rw [hp.1, hp.2.1, hp.2.2.1]
      exact hold top hk hp' rfl

theorem push {ps : List CodeUnit} {p top : CodeUnit} (h : HookStack u hooks (ps ++ [p]))
    {source placeholder : String}
    (hbody : AssemblesTo (substitute placeholder p.name source) top.body) (hlocals : top.locals = [])
    (hchildren : top.children = []) (harity : top.arity = p.arity)
    (hcount : top.localCount = p.localCount) :
    HookStack u (hooks ++ [(source, placeholder)]) (ps ++ [p] ++ [top]) := by
  have hlength : ps.length = hooks.length := by simpa using h.length
  refine ⟨by simp [hlength], ?_, ?_, ?_⟩
  · intro q hq
    rcases List.mem_append.mp hq with hq | hq
    · exact h.counts q hq
    · obtain rfl := List.mem_singleton.mp hq
      have hp := h.counts p (by simp)
      exact ⟨harity.trans hp.1, hcount.trans hp.2⟩
  · intro q hq
    cases ps with
    | nil => exact h.first q hq
    | cons p₁ ps => exact h.first q hq
  · intro k source' placeholder' p' q hk hp' hq
    by_cases hlt : k < hooks.length
    · rw [List.getElem?_append_left hlt] at hk
      rw [List.getElem?_append_left (by simp; omega)] at hp' hq
      exact h.hooked k source' placeholder' p' q hk hp' hq
    · have hk' := (List.getElem?_eq_some_iff.mp hk).1
      obtain rfl : k = hooks.length := by simp at hk'; omega
      rw [List.getElem?_concat_length] at hk
      rw [List.getElem?_append_left (by simp [hlength]), ← hlength,
        List.getElem?_concat_length] at hp'
      rw [show hooks.length + 1 = (ps ++ [p]).length by simp [hlength],
        List.getElem?_concat_length] at hq
      cases hk; cases hp'; cases hq
      exact ⟨hbody, hlocals, hchildren⟩

end HookStack

end HookPatch
