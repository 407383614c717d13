import HookPatch.Proofs.Outcomes
import Mathlib.Data.List.Forall2

namespace HookPatch

variable {ε ε' s s' α α' β β' γ γ' : Type} {R : s → s' → Prop} {Q : β → β' → Prop}
  {S : α → α' → Prop}

def Agree (R : s → s' → Prop) (Q : β → β' → Prop) (x : EStateM ε s β) (y : EStateM ε' s' β') :
    Prop :=
  ∀ p q, R p q → ∀ b p' b' q', x p = .ok b p' → y q = .ok b' q' → R p' q' ∧ Q b b'

namespace Agree

theorem bind {V : γ → γ' → Prop} {x : EStateM ε s β} {y : EStateM ε' s' β'}
    {f : β → EStateM ε s γ} {g : β' → EStateM ε' s' γ'} (h : Agree R Q x y)
    (hrest : ∀ b b', Q b b' → Agree R V (f b) (g b')) : Agree R V (x >>= f) (y >>= g) := by
  intro p q hR c p' c' q' hp hq
  obtain ⟨b, p₁, hx, hp⟩ := bind_eq_ok_iff.mp hp
  obtain ⟨b', q₁, hy, hq⟩ := bind_eq_ok_iff.mp hq
  obtain ⟨hR, hQ⟩ := h p q hR b p₁ b' q₁ hx hy
  exact hrest b b' hQ p₁ q₁ hR c p' c' q' hp hq

theorem pure {b : β} {b' : β'} (h : Q b b') :
    Agree R Q (Pure.pure b : EStateM ε s β) (Pure.pure b' : EStateM ε' s' β') := by
  intro p q hR c p' c' q' hp hq
  cases hp
  cases hq
  exact ⟨hR, h⟩

theorem mono {Q' : β → β' → Prop} {x : EStateM ε s β} {y : EStateM ε' s' β'} (h : Agree R Q x y)
    (hQ : ∀ b b', Q b b' → Q' b b') : Agree R Q' x y := by
  intro p q hR b p' b' q' hp hq
  obtain ⟨hR, hb⟩ := h p q hR b p' b' q' hp hq
  exact ⟨hR, hQ b b' hb⟩

theorem discard {x : EStateM ε s β} {y : EStateM ε' s' β'} (h : Agree R Q x y) :
    Agree R (fun _ _ ↦ True) (Functor.discard x) (Functor.discard y) := by
  intro p q hR _ p' _ q' hp hq
  obtain ⟨b, hx⟩ := discard_eq_ok_iff.mp hp
  obtain ⟨b', hy⟩ := discard_eq_ok_iff.mp hq
  exact ⟨(h p q hR b p' b' q' hx hy).1, trivial⟩

theorem adaptExcept {ε₁ ε₂ : Type} {x : EStateM ε s β} {y : EStateM ε' s' β'} (h : Agree R Q x y)
    (g : ε → ε₁) (g' : ε' → ε₂) :
    Agree R Q (EStateM.adaptExcept g x) (EStateM.adaptExcept g' y) := by
  intro p q hR b p' b' q' hp hq
  exact h p q hR b p' b' q' ((adaptExcept_eq_ok_iff g).mp hp) ((adaptExcept_eq_ok_iff g').mp hq)

variable {l : List α} {l' : List α'}

theorem mapM {f : α → EStateM ε s β} {g : α' → EStateM ε' s' β'} (hl : List.Forall₂ S l l')
    (h : ∀ a a', S a a' → Agree R Q (f a) (g a')) :
    Agree R (List.Forall₂ Q) (l.mapM f) (l'.mapM g) := by
  induction hl with
  | nil => exact .pure .nil
  | cons hS hl ih =>
    rw [List.mapM_cons, List.mapM_cons]
    refine (h _ _ hS).bind fun b b' hQ ↦ ih.bind fun bs bs' hbs ↦ ?_
    exact .pure (.cons hQ hbs)

theorem foldlM {f : β → α → EStateM ε s β} {g : β' → α' → EStateM ε' s' β'}
    (hl : List.Forall₂ S l l') (h : ∀ b b' a a', Q b b' → S a a' → Agree R Q (f b a) (g b' a'))
    {b : β} {b' : β'} (hQ : Q b b') : Agree R Q (l.foldlM f b) (l'.foldlM g b') := by
  induction hl generalizing b b' with
  | nil => exact .pure hQ
  | cons hS hl ih =>
    rw [List.foldlM_cons, List.foldlM_cons]
    exact (h _ _ _ _ hQ hS).bind fun c c' hQ ↦ ih hQ

theorem forM {f : α → EStateM ε s PUnit} {g : α' → EStateM ε' s' PUnit} (hl : List.Forall₂ S l l')
    (h : ∀ a a', S a a' → Agree R (fun _ _ ↦ True) (f a) (g a')) :
    Agree R (fun _ _ ↦ True) (l.forM f) (l'.forM g) := by
  induction hl with
  | nil => exact .pure trivial
  | @cons a a' l l' hS hl ih =>
    change Agree R _ (f a >>= fun _ ↦ l.forM f) (g a' >>= fun _ ↦ l'.forM g)
    exact (h a a' hS).bind fun _ _ _ ↦ ih

end Agree

/-- Whenever `x` succeeds, so does `y` from a related state, and they agree. -/
def Follows (R : s → s' → Prop) (Q : β → β' → Prop) (x : EStateM ε s β) (y : EStateM ε' s' β') :
    Prop :=
  ∀ p q, R p q → ∀ b p', x p = .ok b p' → ∃ b' q', y q = .ok b' q' ∧ R p' q' ∧ Q b b'

namespace Follows

theorem pure {b : β} {b' : β'} (h : Q b b') :
    Follows R Q (Pure.pure b : EStateM ε s β) (Pure.pure b' : EStateM ε' s' β') := by
  intro p q hR c p' hp
  cases hp
  exact ⟨b', q, rfl, hR, h⟩

theorem bind {V : γ → γ' → Prop} {x : EStateM ε s β} {y : EStateM ε' s' β'}
    {f : β → EStateM ε s γ} {g : β' → EStateM ε' s' γ'} (h : Follows R Q x y)
    (hrest : ∀ b b', Q b b' → Follows R V (f b) (g b')) : Follows R V (x >>= f) (y >>= g) := by
  intro p q hR c p' hp
  obtain ⟨b, p₁, hx, hp⟩ := bind_eq_ok_iff.mp hp
  obtain ⟨b', q₁, hy, hR, hQ⟩ := h p q hR b p₁ hx
  obtain ⟨c', q', hq, hV⟩ := hrest b b' hQ p₁ q₁ hR c p' hp
  exact ⟨c', q', bind_eq_ok_iff.mpr ⟨b', q₁, hy, hq⟩, hV⟩

theorem ofExcept {x : Except ε β} {y : Except ε' β} (h : ∀ b, x = .ok b → y = .ok b) :
    Follows R Eq (MonadExcept.ofExcept x : EStateM ε s β)
      (MonadExcept.ofExcept y : EStateM ε' s' β) := by
  intro p q hR b p' hp
  obtain ⟨hx, rfl⟩ := ofExcept_eq_ok_iff.mp hp
  exact ⟨b, q, ofExcept_eq_ok_iff.mpr ⟨h b hx, rfl⟩, hR, rfl⟩

theorem mapM {f : α → EStateM ε s β} {g : α → EStateM ε' s' β'} {l : List α}
    (h : ∀ a ∈ l, Follows R Q (f a) (g a)) :
    Follows R (List.Forall₂ Q) (l.mapM f) (l.mapM g) := by
  induction l with
  | nil => exact .pure .nil
  | cons a l ih =>
    rw [List.mapM_cons, List.mapM_cons]
    refine (h a List.mem_cons_self).bind fun b b' hb ↦ ?_
    refine (ih fun a ha ↦ h a (List.mem_cons_of_mem _ ha)).bind fun bs bs' hbs ↦ ?_
    exact .pure (.cons hb hbs)

end Follows

end HookPatch
