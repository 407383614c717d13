import HookPatch.Json.Reader
import Mathlib.Data.List.Basic

namespace HookPatch.Json

/-- Induction on documents, in which all that stands in an array or object has the property. -/
@[elab_as_elim]
theorem nestedInduction {P : Json → Prop} (null : P null) (bool : ∀ b, P (bool b))
    (integer : ∀ n, P (integer n)) (decimal : ∀ d, P (decimal d)) (string : ∀ s, P (string s))
    (array : ∀ items, (∀ j ∈ items, P j) → P (array items))
    (object : ∀ members, (∀ m ∈ members, P m.2) → P (object members)) (j : Json) : P j := by
  refine Json.rec (motive_2 := fun items ↦ ∀ j ∈ items, P j)
    (motive_3 := fun members ↦ ∀ m ∈ members, P m.2) (motive_4 := fun m ↦ P m.2)
    null bool integer decimal string array object ?_ ?_ ?_ ?_ ?_ j
  · simp
  · exact fun j items hj hitems ↦ List.forall_mem_cons.mpr ⟨hj, hitems⟩
  · simp
  · exact fun m members hm hmembers ↦ List.forall_mem_cons.mpr ⟨hm, hmembers⟩
  · exact fun _ _ hj ↦ hj

mutual

def tokens : Json → List Token
  | array items => .beginArray :: [.comma].intercalate (itemTokens items) ++ [.endArray]
  | object members => .beginObject :: [.comma].intercalate (memberTokens members) ++ [.endObject]
  | j => [.scalar j]

def itemTokens : List Json → List (List Token)
  | [] => []
  | j :: rest => tokens j :: itemTokens rest

def memberTokens : List (Option String × Json) → List (List Token)
  | [] => []
  | (key, j) :: rest => (.scalar (.string key) :: .colon :: tokens j) :: memberTokens rest

end

theorem itemTokens_eq_map (items : List Json) : itemTokens items = items.map tokens := by
  induction items with
  | nil => rfl
  | cons j items ih => rw [itemTokens, ih, List.map_cons]

theorem memberTokens_eq_map (members : List (Option String × Json)) : memberTokens members =
    members.map fun m ↦ .scalar (.string m.1) :: .colon :: tokens m.2 := by
  induction members with
  | nil => rfl
  | cons m members ih => rw [memberTokens, ih, List.map_cons]

section Run

variable {stack : List Frame} {rest : List Token}

theorem State.run_cons {s s' : State} {t : Token} (h : s.step t = some s') :
    s.run (t :: rest) = s'.run rest := by
  rw [run, h]

theorem run_firstItem {items : List Json} (hne : items ≠ []) :
    (State.firstItem stack).run ([.comma].intercalate (itemTokens items) ++ rest) =
      (State.value (.array [] :: stack)).run ([.comma].intercalate (itemTokens items) ++ rest) := by
  have hfirst (j : Json) (rest : List Token) : (State.firstItem stack).run (j.tokens ++ rest) =
      (State.value (.array [] :: stack)).run (j.tokens ++ rest) := by
    cases j <;> simp only [tokens] <;> rfl
  match items with
  | [] => exact absurd rfl hne
  | [j] => rw [itemTokens, itemTokens, List.intercalate_singleton, hfirst]
  | j :: j' :: items =>
    rw [itemTokens, itemTokens, List.intercalate_cons_cons, List.append_assoc, List.append_assoc,
      hfirst]

theorem run_firstKey {members : List (Option String × Json)} (hne : members ≠ []) :
    (State.firstKey stack).run ([.comma].intercalate (memberTokens members) ++ rest) =
      (State.key [] stack).run ([.comma].intercalate (memberTokens members) ++ rest) := by
  match members with
  | [] => exact absurd rfl hne
  | [m] => rfl
  | m :: m' :: members => rfl

theorem run_items {items : List Json}
    (h : ∀ j ∈ items, ∀ stack rest, (State.value stack).run (j.tokens ++ rest) =
      (State.complete j stack).run rest) (hne : items ≠ []) (before : List Json) :
    (State.value (.array before :: stack)).run
        ([.comma].intercalate (itemTokens items) ++ .endArray :: rest) =
      (State.complete (.array (before.reverse ++ items)) stack).run rest := by
  induction items generalizing before with
  | nil => exact absurd rfl hne
  | cons j items ih =>
    obtain ⟨hj, hitems⟩ := List.forall_mem_cons.mp h
    cases items with
    | nil =>
      rw [itemTokens, itemTokens, List.intercalate_singleton, hj, ← List.reverse_cons]
      exact State.run_cons rfl
    | cons j' items =>
      have hrest := ih hitems (List.cons_ne_nil _ _) (j :: before)
      rw [List.reverse_cons, List.append_assoc, List.singleton_append, itemTokens] at hrest
      rw [itemTokens, itemTokens, List.intercalate_cons_cons, List.append_assoc, List.append_assoc,
        hj, ← hrest]
      exact State.run_cons rfl

theorem run_members {members : List (Option String × Json)}
    (h : ∀ m ∈ members, ∀ stack rest, (State.value stack).run (m.2.tokens ++ rest) =
      (State.complete m.2 stack).run rest) (hne : members ≠ [])
    (before : List (Option String × Json)) :
    (State.key before stack).run
        ([.comma].intercalate (memberTokens members) ++ .endObject :: rest) =
      (State.complete (.object (before.reverse ++ members)) stack).run rest := by
  induction members generalizing before with
  | nil => exact absurd rfl hne
  | cons m members ih =>
    obtain ⟨hm, hmembers⟩ := List.forall_mem_cons.mp h
    have hkey (rest : List Token) :
        (State.key before stack).run (.scalar (.string m.1) :: .colon :: (m.2.tokens ++ rest)) =
          (State.complete m.2 (.object before m.1 :: stack)).run rest := by
      rw [← hm]
      exact (State.run_cons rfl).trans (State.run_cons rfl)
    cases members with
    | nil =>
      rw [memberTokens, memberTokens, List.intercalate_singleton, List.cons_append,
        List.cons_append, hkey, ← List.reverse_cons]
      exact State.run_cons rfl
    | cons m' members =>
      have hrest := ih hmembers (List.cons_ne_nil _ _) (m :: before)
      rw [List.reverse_cons, List.append_assoc, List.singleton_append, memberTokens] at hrest
      rw [memberTokens, memberTokens, List.intercalate_cons_cons, List.append_assoc,
        List.append_assoc, List.cons_append, List.cons_append, hkey, ← hrest]
      exact State.run_cons rfl

/-- A value is complete behind its tokens. -/
theorem run_tokens (j : Json) (stack : List Frame) (rest : List Token) :
    (State.value stack).run (j.tokens ++ rest) = (State.complete j stack).run rest := by
  -- The stack is any, for an item is read with its array on it.
  induction j using nestedInduction generalizing stack rest with
  | array items ih =>
    rw [tokens, List.cons_append, List.cons_append, List.append_assoc, List.singleton_append]
    refine (State.run_cons rfl).trans ?_
    by_cases hne : items = []
    · rw [hne]
      exact State.run_cons rfl
    · rw [run_firstItem hne]
      exact run_items ih hne []
  | object members ih =>
    rw [tokens, List.cons_append, List.cons_append, List.append_assoc, List.singleton_append]
    refine (State.run_cons rfl).trans ?_
    by_cases hne : members = []
    · rw [hne]
      exact State.run_cons rfl
    · rw [run_firstKey hne]
      exact run_members ih hne []
  | _ => exact State.run_cons rfl

end Run

theorem ofTokens?_tokens (j : Json) : ofTokens? j.tokens = some j := by
  have hrun := run_tokens j [] []
  rw [List.append_nil, State.run] at hrun
  rw [ofTokens?, hrun]

end HookPatch.Json
