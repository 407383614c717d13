namespace HookPatch

variable {ε ε' s α β : Type}

def resultState : EStateM.Result ε s α → s
  | .ok _ p => p
  | .error _ p => p

/-- The state in which a computation ends, whether it succeeds or fails. -/
def stateAfter (x : EStateM ε s α) (p : s) : s := resultState (x p)

def succeeds (x : EStateM ε s α) (p : s) : Bool :=
  match x p with
  | .ok _ _ => true
  | .error _ _ => false

def value? (x : EStateM ε s α) (p : s) : Option α :=
  match x p with
  | .ok a _ => some a
  | .error _ _ => none

def failure? (x : EStateM ε s α) (p : s) : Option ε :=
  match x p with
  | .ok _ _ => none
  | .error e _ => some e

section

variable {x : EStateM ε s α} {f : α → EStateM ε s β} {p q : s}

theorem stateAfter_ok {a : α} (h : x p = .ok a q) : stateAfter x p = q := by
  rw [stateAfter, h, resultState]

theorem stateAfter_error {e : ε} (h : x p = .error e q) : stateAfter x p = q := by
  rw [stateAfter, h, resultState]

theorem stateAfter_congr {y : EStateM ε s α} (h : x p = y q) : stateAfter x p = stateAfter y q := by
  rw [stateAfter, stateAfter, h]

theorem stateAfter_discard : stateAfter (discard x) p = stateAfter x p := by
  change stateAfter (EStateM.map (fun _ ↦ PUnit.unit) x) p = _
  rw [stateAfter, stateAfter, EStateM.map]
  cases x p <;> rfl

theorem stateAfter_adaptExcept (g : ε → ε') :
    stateAfter (EStateM.adaptExcept g x) p = stateAfter x p := by
  rw [stateAfter, stateAfter, EStateM.adaptExcept]
  cases x p <;> rfl

theorem discard_eq_ok_iff {u : PUnit} : discard x p = .ok u q ↔ ∃ a, x p = .ok a q := by
  change EStateM.map (fun _ ↦ PUnit.unit) x p = _ ↔ _
  rw [EStateM.map]
  cases x p <;> simp

theorem adaptExcept_eq_ok_iff {a : α} (g : ε → ε') :
    EStateM.adaptExcept g x p = .ok a q ↔ x p = .ok a q := by
  rw [EStateM.adaptExcept]
  cases x p <;> simp

theorem succeeds_iff : succeeds x p ↔ ∃ a q, x p = .ok a q := by
  cases h : x p <;> simp [succeeds, h]

theorem not_succeeds_iff : ¬ succeeds x p ↔ ∃ e q, x p = .error e q := by
  cases h : x p <;> simp [succeeds, h]

theorem value?_eq_some {a : α} : value? x p = some a ↔ ∃ q, x p = .ok a q := by
  rw [value?]
  cases x p <;> simp

theorem failure?_ok {a : α} (h : x p = .ok a q) : failure? x p = none := by
  rw [failure?, h]

theorem failure?_error {e : ε} (h : x p = .error e q) : failure? x p = some e := by
  rw [failure?, h]

theorem failure?_eq_some {e : ε} : failure? x p = some e ↔ ∃ q, x p = .error e q := by
  rw [failure?]
  cases x p <;> simp

theorem bind_ok {a : α} (h : x p = .ok a q) : (x >>= f) p = f a q := by
  change EStateM.bind x f p = _
  rw [EStateM.bind, h]

theorem bind_error {e : ε} (h : x p = .error e q) : (x >>= f) p = .error e q := by
  change EStateM.bind x f p = _
  rw [EStateM.bind, h]

theorem bind_eq_ok_iff {b : β} :
    (x >>= f) p = .ok b q ↔ ∃ a p', x p = .ok a p' ∧ f a p' = .ok b q := by
  change EStateM.bind x f p = _ ↔ _
  cases h : x p <;> simp [EStateM.bind, h, and_assoc]

theorem value?_bind_eq_some {b : β} :
    value? (x >>= f) p = some b ↔ ∃ a q, x p = .ok a q ∧ value? (f a) q = some b := by
  simp only [value?_eq_some, bind_eq_ok_iff]
  constructor
  · rintro ⟨q, a, r, hx, hf⟩
    exact ⟨a, r, hx, q, hf⟩
  · rintro ⟨a, r, hx, q, hf⟩
    exact ⟨q, a, r, hx, hf⟩

theorem ofExcept_eq_ok_iff {x : Except ε α} {a : α} :
    (MonadExcept.ofExcept x : EStateM ε s α) p = .ok a q ↔ x = .ok a ∧ p = q := by
  cases x with
  | error e =>
    change EStateM.Result.error e p = _ ↔ _
    simp
  | ok b =>
    change EStateM.Result.ok b p = _ ↔ _
    simp

theorem bind_eq_error_iff {e : ε} :
    (x >>= f) p = .error e q ↔ x p = .error e q ∨ ∃ a p', x p = .ok a p' ∧ f a p' = .error e q := by
  change EStateM.bind x f p = _ ↔ _
  cases h : x p <;> simp [EStateM.bind, h, and_assoc]

theorem bind_cases (x : EStateM ε s α) (f : α → EStateM ε s β) (p : s) :
    (∃ e q, x p = .error e q ∧ (x >>= f) p = .error e q) ∨
      ∃ a q, x p = .ok a q ∧ (x >>= f) p = f a q := by
  change (∃ e q, x p = .error e q ∧ EStateM.bind x f p = .error e q) ∨
    ∃ a q, x p = .ok a q ∧ EStateM.bind x f p = f a q
  cases h : x p with
  | error e q => exact .inl ⟨e, q, rfl, by rw [EStateM.bind, h]⟩
  | ok a q => exact .inr ⟨a, q, rfl, by rw [EStateM.bind, h]⟩

/-- A value for every element of a list, where each is known and nothing happens to what is known of
the state. -/
theorem mapM_eq_map {I : s → Prop} {C : α → Prop} {g : α → β} {l : List α} {bs : List β} (hI : I p)
    (h : ∀ a ∈ l, ∀ p b q, I p → f a p = .ok b q → I q ∧ C a ∧ b = g a)
    (hl : l.mapM f p = .ok bs q) : I q ∧ (∀ a ∈ l, C a) ∧ bs = l.map g := by
  induction l generalizing p bs with
  | nil =>
    cases hl
    exact ⟨hI, by simp, rfl⟩
  | cons a l ih =>
    rw [List.mapM_cons] at hl
    obtain ⟨b, p₁, hb, hl⟩ := bind_eq_ok_iff.mp hl
    obtain ⟨cs, p₂, hcs, hl⟩ := bind_eq_ok_iff.mp hl
    cases hl
    obtain ⟨hI, ha, rfl⟩ := h a List.mem_cons_self p b p₁ hI hb
    obtain ⟨hI, hrest, rfl⟩ := ih hI (fun a ha ↦ h a (List.mem_cons_of_mem _ ha)) hcs
    exact ⟨hI, List.forall_mem_cons.mpr ⟨ha, hrest⟩, rfl⟩

end

section Except

variable {x : Except ε α} {f : α → Except ε β}

theorem except_bind_eq_ok_iff {b : β} :
    (x >>= f) = .ok b ↔ ∃ a, x = .ok a ∧ f a = .ok b := by
  cases x <;> simp [bind, Except.bind]

theorem except_map_eq_ok_iff {g : α → β} {b : β} :
    x.map g = .ok b ↔ ∃ a, x = .ok a ∧ g a = b := by
  cases x <;> simp [Except.map]

theorem except_mapM_eq_map {g : α → β} {l : List α} {bs : List β}
    (h : ∀ a ∈ l, ∀ b, f a = .ok b → b = g a) (hl : l.mapM f = .ok bs) : bs = l.map g := by
  induction l generalizing bs with
  | nil =>
    cases hl
    rfl
  | cons a l ih =>
    rw [List.mapM_cons] at hl
    obtain ⟨b, hb, hl⟩ := except_bind_eq_ok_iff.mp hl
    obtain ⟨cs, hcs, hl⟩ := except_bind_eq_ok_iff.mp hl
    cases hl
    obtain rfl := h a List.mem_cons_self b hb
    obtain rfl := ih (fun a ha ↦ h a (List.mem_cons_of_mem _ ha)) hcs
    rfl

end Except

theorem mapM_congr {m : Type → Type} [Monad m] [LawfulMonad m] {f g : α → m β} {l : List α}
    (h : ∀ a ∈ l, f a = g a) : l.mapM f = l.mapM g := by
  induction l with
  | nil => rfl
  | cons a l ih =>
    rw [List.mapM_cons, List.mapM_cons, h a List.mem_cons_self,
      ih fun a ha ↦ h a (List.mem_cons_of_mem _ ha)]

/-- Whatever a computation does to its state is allowed by `R`, and if it comes to a value, the value
is as `Q` says. -/
structure Meets (R : s → s → Prop) (Q : α → Prop) (x : EStateM ε s α) : Prop where
  ok : ∀ p a q, x p = .ok a q → R p q ∧ Q a
  error : ∀ p e q, x p = .error e q → R p q

namespace Meets

variable {R : s → s → Prop} {Q : α → Prop} {Q' : β → Prop}

theorem bind (htrans : ∀ p q r, R p q → R q r → R p r) {x : EStateM ε s α} {f : α → EStateM ε s β}
    (hx : Meets R Q x) (hf : ∀ a, Q a → Meets R Q' (f a)) : Meets R Q' (x >>= f) where
  ok p b q h := by
    obtain ⟨a, p', hok, hrest⟩ := bind_eq_ok_iff.mp h
    obtain ⟨hR, hQ⟩ := hx.ok p a p' hok
    obtain ⟨hR', hQ'⟩ := (hf a hQ).ok p' b q hrest
    exact ⟨htrans _ _ _ hR hR', hQ'⟩
  error p e q h := by
    rcases bind_eq_error_iff.mp h with herror | ⟨a, p', hok, hrest⟩
    · exact hx.error p e q herror
    · obtain ⟨hR, hQ⟩ := hx.ok p a p' hok
      exact htrans _ _ _ hR ((hf a hQ).error p' e q hrest)

theorem pure (hrefl : ∀ p, R p p) {a : α} (ha : Q a) : Meets R Q (Pure.pure a : EStateM ε s α) where
  ok p b q h := by cases h; exact ⟨hrefl p, ha⟩
  error p e q h := by cases h

theorem of_stateAfter {x : EStateM ε s α} (h : ∀ p, R p (stateAfter x p)) :
    Meets R (fun _ ↦ True) x where
  ok p _ _ hx := ⟨stateAfter_ok hx ▸ h p, trivial⟩
  error p _ _ hx := stateAfter_error hx ▸ h p

theorem stateAfter {x : EStateM ε s α} (h : Meets R Q x) (p : s) : R p (stateAfter x p) := by
  rw [HookPatch.stateAfter]
  cases hx : x p with
  | ok a p' => exact (h.ok p a p' hx).1
  | error e p' => exact h.error p e p' hx

section Lists

variable (hrefl : ∀ p, R p p) (htrans : ∀ p q r, R p q → R q r → R p r)

include hrefl htrans

theorem mapM {f : α → EStateM ε s β} {l : List α} (hf : ∀ a ∈ l, Meets R Q' (f a)) :
    Meets R (fun bs ↦ ∀ b ∈ bs, Q' b) (l.mapM f) := by
  induction l with
  | nil => exact .pure hrefl (fun b hb ↦ by cases hb)
  | cons a l ih =>
    rw [List.mapM_cons]
    refine (hf a List.mem_cons_self).bind htrans fun b hb ↦ ?_
    refine (ih fun a ha ↦ hf a (List.mem_cons_of_mem _ ha)).bind htrans fun bs hbs ↦ ?_
    exact .pure hrefl (List.forall_mem_cons.mpr ⟨hb, hbs⟩)

theorem forM {f : α → EStateM ε s PUnit} {l : List α}
    (hf : ∀ a ∈ l, Meets R (fun _ ↦ True) (f a)) : Meets R (fun _ ↦ True) (l.forM f) := by
  induction l with
  | nil => exact .pure hrefl trivial
  | cons a l ih =>
    change Meets R _ (f a >>= fun _ ↦ l.forM f)
    exact (hf a List.mem_cons_self).bind htrans fun _ _ ↦
      ih fun a ha ↦ hf a (List.mem_cons_of_mem _ ha)

theorem foldlM {f : β → α → EStateM ε s β} {l : List α}
    (hf : ∀ b, ∀ a ∈ l, Meets R (fun _ ↦ True) (f b a)) (b : β) :
    Meets R (fun _ ↦ True) (l.foldlM f b) := by
  induction l generalizing b with
  | nil => exact .pure hrefl trivial
  | cons a l ih =>
    rw [List.foldlM_cons]
    exact (hf b a List.mem_cons_self).bind htrans fun b _ ↦
      ih (fun b a ha ↦ hf b a (List.mem_cons_of_mem _ ha)) b

end Lists

end Meets

end HookPatch
