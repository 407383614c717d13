import HookPatch.Cursor
import Mathlib.Data.List.Basic

namespace HookPatch

theorem insertIdx_append_cons {α : Type} (b : α) (l₁ : List α) (a : α) (l₂ : List α) :
    (l₁ ++ a :: l₂).insertIdx (l₁.length + 1) b = l₁ ++ a :: b :: l₂ := by
  induction l₁ with
  | nil => rfl
  | cons c l₁ ih => simp [ih]

namespace Cursor

section Search

variable {c : Cursor} {p : Instruction → Bool}

theorem goto_of_forall (h : ∀ i ∈ c.ahead, p i = false) : c.goto p = (false, c) := by
  have hnext : c.next? p = none := by rw [next?, List.findIdx?_eq_none_iff.mpr h, Option.map_none]
  rw [goto, hnext]

theorem goto_of_first {front rest : List Instruction} {i : Instruction}
    (hahead : c.ahead = front ++ i :: rest) (hfront : ∀ j ∈ front, p j = false) (hi : p i) :
    c.goto p = (true, { c with position := some (c.start + front.length) }) := by
  have hfind : c.ahead.findIdx? p = some front.length := by
    rw [hahead, List.findIdx?_append, List.findIdx?_eq_none_iff.mpr hfront, List.findIdx?_cons, hi]
    simp
  have hnext : c.next? p = some { c with position := some (c.start + front.length) } := by
    rw [next?, hfind, Option.map_some]
  rw [goto, hnext]

theorem goto_cases (p : Instruction → Bool) (c : Cursor) :
    (∀ i ∈ c.ahead, p i = false) ∧ c.goto p = (false, c) ∨
      ∃ front i rest, c.ahead = front ++ i :: rest ∧ (∀ j ∈ front, p j = false) ∧ p i ∧
        c.goto p = (true, { c with position := some (c.start + front.length) }) := by
  cases hfind : c.ahead.find? p with
  | none =>
    have hnone : ∀ i ∈ c.ahead, p i = false := by simpa using List.find?_eq_none.mp hfind
    exact .inl ⟨hnone, goto_of_forall hnone⟩
  | some i =>
    obtain ⟨hi, front, rest, hahead, hbefore⟩ := List.find?_eq_some_iff_append.mp hfind
    have hfront : ∀ j ∈ front, p j = false := by simpa using hbefore
    exact .inr ⟨front, i, rest, hahead, hfront, hi, goto_of_first hahead hfront hi⟩

end Search

def InBounds (c : Cursor) : Prop := ∀ k ∈ c.position, k < c.code.length

section InBounds

variable {c : Cursor}

theorem inBounds_of_position {k : Nat} (hposition : c.position = some k) (hk : k < c.code.length) :
    c.InBounds := by
  intro j hj
  rw [hposition, Option.mem_some_iff] at hj
  omega

theorem InBounds.start_le (h : c.InBounds) : c.start ≤ c.code.length := by
  unfold start
  split
  · omega
  · rename_i k hposition
    have hk := h k hposition
    omega

theorem InBounds.isSome_current? (h : c.InBounds) : c.current?.isSome = c.position.isSome := by
  cases hposition : c.position with
  | none => rw [current?, hposition]; rfl
  | some k =>
    have hk := h k hposition
    rw [current?, hposition, Option.bind_some, List.getElem?_eq_getElem hk]
    rfl

theorem replace_of_none (hposition : c.position = none) (i : Instruction) :
    c.replace i = (none, c) := by rw [replace, hposition]

theorem replace_of_some {k : Nat} (hposition : c.position = some k) (hk : k < c.code.length)
    (i : Instruction) : c.replace i = (some c.code[k], { c with code := c.code.set k i }) := by
  simp only [replace, current?, hposition, Option.bind_some, List.getElem?_eq_getElem hk]

theorem remove_of_none (hposition : c.position = none) : c.remove = (none, c) := by
  rw [remove, hposition]

theorem remove_of_some {k : Nat} (hposition : c.position = some k) (hk : k < c.code.length) :
    c.remove = (some c.code[k], {
      code := c.code.eraseIdx k, position := if k = 0 then none else some (k - 1) }) := by
  simp only [remove, current?, hposition, Option.bind_some, List.getElem?_eq_getElem hk]

/-- Whether there is a position left or not, the next search looks at the successor first. -/
theorem start_of_remove {code : List Instruction} (k : Nat) :
    (Cursor.mk code (if k = 0 then none else some (k - 1))).start = k := by
  by_cases hzero : k = 0
  · rw [if_pos hzero, hzero]; rfl
  · rw [if_neg hzero]; exact Nat.sub_add_cancel (by omega)

end InBounds

inductive Action
  | goto (p : Instruction → Bool)
  | replace (i : Instruction)
  | insert (i : Instruction)
  | remove

namespace Action

def after : Action → Cursor → Cursor
  | goto p, c => (c.goto p).2
  | replace i, c => (c.replace i).2
  | insert i, c => c.insert i
  | remove, c => c.remove.2

def finds : Action → Cursor → Bool
  | goto p, c => (c.goto p).1
  | _, _ => false

/-- What an action does to a list that runs along the code of `c`, in which a new instruction has
the entry `new`. -/
def along {α : Type} (new : α) (c : Cursor) : Action → List α → List α
  | goto _, l => l
  | replace _, l => c.position.elim l fun k ↦ l.set k new
  | insert _, l => l.insertIdx c.start new
  | remove, l => c.position.elim l l.eraseIdx

/-- An action that leaves alone what lies ahead of `c`, also in every list along the code. -/
structure Spares (a : Action) (c : Cursor) : Prop where
  inBounds : (a.after c).InBounds
  length {α : Type} (new : α) (l : List α) :
    l.length = c.code.length → (a.along new c l).length = (a.after c).code.length
  drop {α : Type} (new : α) (l : List α) :
    l.length = c.code.length → (a.along new c l).drop (a.after c).start = l.drop c.start

section Edits

variable {c : Cursor}

theorem drop_insertIdx_succ {α : Type} {l : List α} {n : Nat} (new : α) :
    (l.insertIdx n new).drop (n + 1) = l.drop n := by
  refine List.ext_getElem? fun j ↦ ?_
  rw [List.getElem?_drop, List.getElem?_drop, List.getElem?_insertIdx_of_gt (by omega)]
  exact congrArg (l[·]?) (by omega)

theorem drop_eraseIdx {α : Type} {l : List α} {k : Nat} (hk : k < l.length) :
    (l.eraseIdx k).drop k = l.drop (k + 1) := by
  rw [List.eraseIdx_eq_take_drop_succ, List.drop_left' (List.length_take_of_le (by omega))]

theorem spares_of_after_eq {a : Action} (h : c.InBounds) (hafter : a.after c = c)
    (halong : ∀ {α : Type} (new : α) (l : List α), a.along new c l = l) : a.Spares c where
  inBounds := hafter.symm ▸ h
  length new l hl := by rw [halong, hafter, hl]
  drop new l _ := by rw [halong, hafter]

theorem replace_spares (h : c.InBounds) (i : Instruction) : (replace i).Spares c := by
  cases hposition : c.position with
  | none =>
    refine spares_of_after_eq h ?_ fun new l ↦ ?_
    · rw [after, replace_of_none hposition]
    · rw [along, hposition, Option.elim_none]
  | some k =>
    have hk := h k hposition
    have hafter : (replace i).after c = { c with code := c.code.set k i } := by
      rw [after, replace_of_some hposition hk]
    have hstart : c.start = k + 1 := by rw [start, hposition]
    refine ⟨?_, fun new l hl ↦ ?_, fun new l hl ↦ ?_⟩
    · rw [hafter]
      exact inBounds_of_position hposition (by rw [List.length_set]; exact hk)
    · rw [along, hposition, Option.elim_some, hafter, List.length_set, List.length_set, hl]
    · have hstart' : ((replace i).after c).start = k + 1 := by rw [hafter, ← hstart]; rfl
      rw [along, hposition, Option.elim_some, hstart', hstart, List.drop_set_of_lt (by omega)]

theorem insert_spares (h : c.InBounds) (i : Instruction) : (insert i).Spares c := by
  have hle := h.start_le
  have hlength := List.length_insertIdx_of_le_length hle i
  refine ⟨?_, fun new l hl ↦ ?_, fun new l hl ↦ ?_⟩
  · have hlt : c.start < (c.code.insertIdx c.start i).length := by omega
    exact inBounds_of_position rfl hlt
  · rw [along, after, Cursor.insert, hlength, List.length_insertIdx_of_le_length (by omega), hl]
  · exact drop_insertIdx_succ new

theorem remove_spares (h : c.InBounds) : remove.Spares c := by
  cases hposition : c.position with
  | none =>
    refine spares_of_after_eq h ?_ fun new l ↦ ?_
    · rw [after, remove_of_none hposition]
    · rw [along, hposition, Option.elim_none]
  | some k =>
    have hk := h k hposition
    have hafter : remove.after c = {
        code := c.code.eraseIdx k, position := if k = 0 then none else some (k - 1) } := by
      rw [after, remove_of_some hposition hk]
    have hlength := List.length_eraseIdx_of_lt hk
    refine ⟨?_, fun new l hl ↦ ?_, fun new l hl ↦ ?_⟩
    · rw [hafter]
      intro j hj
      by_cases hzero : k = 0
      · simp [hzero] at hj
      · simp only [hzero, if_false, Option.mem_some_iff] at hj
        dsimp only
        omega
    · have hkl : k < l.length := by omega
      rw [along, hposition, Option.elim_some, hafter, hlength, List.length_eraseIdx_of_lt hkl, hl]
    · have hstart : c.start = k + 1 := by rw [start, hposition]
      rw [along, hposition, Option.elim_some, hafter, start_of_remove, hstart,
        drop_eraseIdx (by omega)]

end Edits

/-- An action is a search that comes to the first match ahead, or spares all that lies ahead. -/
theorem cases {c : Cursor} (h : c.InBounds) (a : Action) :
    a.finds c = false ∧ a.Spares c ∨
      ∃ p front i rest, a = goto p ∧ a.finds c ∧ c.ahead = front ++ i :: rest ∧
        a.after c = { c with position := some (c.start + front.length) } := by
  cases a with
  | goto p =>
    rcases goto_cases p c with ⟨-, hgoto⟩ | ⟨front, i, rest, hahead, -, -, hgoto⟩
    · refine .inl ⟨by rw [finds, hgoto], spares_of_after_eq h ?_ fun _ _ ↦ rfl⟩
      rw [after, hgoto]
    · exact .inr ⟨p, front, i, rest, rfl, by rw [finds, hgoto], hahead, by rw [after, hgoto]⟩
  | replace i => exact .inl ⟨rfl, replace_spares h i⟩
  | insert i => exact .inl ⟨rfl, insert_spares h i⟩
  | remove => exact .inl ⟨rfl, remove_spares h⟩

theorem exists_code_after {c : Cursor} (h : c.InBounds) (a : Action) :
    ∃ new, (a.after c).code = a.along new c c.code := by
  cases a with
  | goto p =>
    refine ⟨.nop, ?_⟩
    rcases goto_cases p c with ⟨-, hgoto⟩ | ⟨front, i, rest, -, -, -, hgoto⟩
    · rw [after, hgoto, along]
    · rw [after, hgoto, along]
  | replace i =>
    refine ⟨i, ?_⟩
    cases hposition : c.position with
    | none => rw [after, replace_of_none hposition, along, hposition, Option.elim_none]
    | some k =>
      rw [after, replace_of_some hposition (h k hposition), along, hposition, Option.elim_some]
  | insert i => exact ⟨i, rfl⟩
  | remove =>
    refine ⟨.nop, ?_⟩
    cases hposition : c.position with
    | none => rw [after, remove_of_none hposition, along, hposition, Option.elim_none]
    | some k =>
      rw [after, remove_of_some hposition (h k hposition), along, hposition, Option.elim_some]

theorem Spares.ahead_eq {c : Cursor} (h : c.InBounds) {a : Action} (hspares : a.Spares c) :
    (a.after c).ahead = c.ahead := by
  obtain ⟨new, hcode⟩ := exists_code_after h a
  rw [ahead, hcode, hspares.drop new c.code rfl, ahead]

theorem ahead_of_finds_eq_false {c : Cursor} (h : c.InBounds) (a : Action)
    (hfinds : a.finds c = false) : (a.after c).ahead = c.ahead := by
  rcases cases h a with ⟨-, hspares⟩ | ⟨p, front, i, rest, -, hfinds', -, -⟩
  · exact hspares.ahead_eq h
  · rw [hfinds] at hfinds'
    cases hfinds'

/-- What lies ahead stays at the end of the code, and the cursor does not move back from it. -/
theorem after_ahead {c : Cursor} (h : c.InBounds) (a : Action) :
    (a.after c).InBounds ∧ (a.after c).ahead <:+ c.ahead ∧ c.ahead <:+ (a.after c).code := by
  rcases cases h a with ⟨-, hspares⟩ | ⟨p, front, i, rest, -, -, hahead, hafter⟩
  · have heq := hspares.ahead_eq h
    refine ⟨hspares.inBounds, heq ▸ List.suffix_refl _, ?_⟩
    rw [← heq]
    exact List.drop_suffix _ _
  · have hlength : c.ahead.length = c.code.length - c.start := List.length_drop
    rw [hahead, List.length_append, List.length_cons] at hlength
    rw [hafter]
    refine ⟨inBounds_of_position rfl (by dsimp only; omega), ?_, List.drop_suffix _ _⟩
    have hdrop : c.code.drop (c.start + front.length + 1) = c.ahead.drop (front.length + 1) := by
      rw [ahead, List.drop_drop, Nat.add_assoc]
    rw [ahead, start, hdrop]
    exact List.drop_suffix _ _

end Action

/-- A cursor, and for each instruction of its code the place that it had in the original body,
unless it is new. -/
structure Tracked where
  cursor : Cursor
  origins : List (Option Nat)

namespace Tracked

def start (original : List Instruction) : Tracked where
  cursor := { code := original }
  origins := (List.range original.length).map some

def after (a : Action) (t : Tracked) : Tracked where
  cursor := a.after t.cursor
  origins := a.along none t.cursor t.origins

def origin? (t : Tracked) : Option Nat := t.cursor.position.bind fun k ↦ t.origins[k]?.join

/-- What the successful searches of actions come to: the original place of the instruction, and the
instruction. -/
def landings : List Action → Tracked → List (Option Nat × Option Instruction)
  | [], _ => []
  | a :: actions, t =>
    let next := t.after a
    if a.finds t.cursor then (next.origin?, next.cursor.current?) :: landings actions next
    else landings actions next

structure Ahead (original : List Instruction) (n : Nat) (t : Tracked) : Prop where
  inBounds : t.cursor.InBounds
  length : t.origins.length = t.cursor.code.length
  code : t.cursor.ahead = original.drop n
  origins : t.origins.drop t.cursor.start = ((List.range original.length).drop n).map some

variable {original : List Instruction} {n : Nat} {t : Tracked} {a : Action}

theorem ahead_start (original : List Instruction) : Ahead original 0 (start original) where
  inBounds k hk := by cases hk
  length := by rw [start, List.length_map, List.length_range]
  code := rfl
  origins := rfl

theorem Ahead.spares (h : Ahead original n t) (hspares : a.Spares t.cursor) :
    Ahead original n (t.after a) where
  inBounds := hspares.inBounds
  length := hspares.length none t.origins h.length
  code := (hspares.ahead_eq h.inBounds).trans h.code
  origins := (hspares.drop none t.origins h.length).trans h.origins

theorem Ahead.found (h : Ahead original n t) {p : Instruction → Bool}
    {front rest : List Instruction} {i : Instruction} (hahead : t.cursor.ahead = front ++ i :: rest)
    (hafter : (Action.goto p).after t.cursor =
      { t.cursor with position := some (t.cursor.start + front.length) }) :
    let next := t.after (.goto p)
    n + front.length < original.length ∧ Ahead original (n + front.length + 1) next ∧
      next.origin? = some (n + front.length) ∧
      next.cursor.current? = original[n + front.length]? := by
  intro next
  have hnext : next.cursor = { t.cursor with position := some (t.cursor.start + front.length) } :=
    hafter
  have horigins : next.origins = t.origins := rfl
  have hcode : t.cursor.code.drop t.cursor.start = original.drop n := h.code
  have hlength : (original.drop n).length = front.length + 1 + rest.length := by
    rw [← h.code, hahead, List.length_append, List.length_cons]
    omega
  rw [List.length_drop] at hlength
  have hinBounds : next.cursor.InBounds := (Action.after_ahead h.inBounds (.goto p)).1
  have hlt : n + front.length < original.length := by omega
  have hstart : next.cursor.start = t.cursor.start + (front.length + 1) := by rw [hnext]; rfl
  refine ⟨hlt, ⟨hinBounds, ?_, ?_, ?_⟩, ?_, ?_⟩
  · rw [horigins, h.length, hnext]
  · rw [ahead, hstart, hnext, ← List.drop_drop, hcode, List.drop_drop, Nat.add_assoc]
  · rw [horigins, hstart, ← List.drop_drop, h.origins, ← List.map_drop, List.drop_drop,
      Nat.add_assoc]
  · have hplace : t.origins[t.cursor.start + front.length]? = some (some (n + front.length)) := by
      rw [← List.getElem?_drop, h.origins, List.getElem?_map, List.getElem?_drop,
        List.getElem?_range hlt, Option.map_some]
    rw [origin?, hnext, horigins, Option.bind_some, hplace, Option.join_some]
  · rw [current?, hnext, Option.bind_some, ← List.getElem?_drop, hcode, List.getElem?_drop]

/-- Successful searches come to places of the original body, one behind the other. -/
theorem Ahead.exists_landings (h : Ahead original n t) (actions : List Action) :
    ∃ places : List Nat, landings actions t = places.map (fun m ↦ (some m, original[m]?)) ∧
      places.Pairwise (· < ·) ∧ ∀ m ∈ places, n ≤ m ∧ m < original.length := by
  induction actions generalizing n t with
  | nil => exact ⟨[], rfl, .nil, nofun⟩
  | cons a actions ih =>
    rcases Action.cases h.inBounds a with
      ⟨hfinds, hspares⟩ | ⟨p, front, i, rest, rfl, hfinds, hahead, hafter⟩
    · obtain ⟨places, hplaces, hordered, hbounds⟩ := ih (h.spares hspares)
      refine ⟨places, ?_, hordered, hbounds⟩
      rw [landings, hfinds]
      exact hplaces
    · obtain ⟨hlt, hnext, horigin, hcurrent⟩ := h.found hahead hafter
      obtain ⟨places, hplaces, hordered, hbounds⟩ := ih hnext
      refine ⟨(n + front.length) :: places, ?_, ?_, ?_⟩
      · rw [landings, if_pos hfinds, horigin, hcurrent, hplaces, List.map_cons]
      · refine List.pairwise_cons.mpr ⟨fun m hm ↦ ?_, hordered⟩
        have hm' := hbounds m hm
        omega
      · refine List.forall_mem_cons.mpr ⟨⟨by omega, hlt⟩, fun m hm ↦ ?_⟩
        have hm' := hbounds m hm
        omega

end Tracked

def afterAll (actions : List Action) (c : Cursor) : Cursor := actions.foldl (fun c a ↦ a.after c) c

theorem afterAll_ahead {c : Cursor} (h : c.InBounds) (actions : List Action) :
    (afterAll actions c).InBounds ∧ (afterAll actions c).ahead <:+ c.ahead := by
  induction actions generalizing c with
  | nil => exact ⟨h, List.suffix_refl _⟩
  | cons a actions ih =>
    obtain ⟨hbounds, hahead, -⟩ := a.after_ahead h
    obtain ⟨hbounds', hahead'⟩ := ih hbounds
    exact ⟨hbounds', hahead'.trans hahead⟩

/-- Whatever a new cursor has done, its position is in the code, an end of the original body lies
ahead of it that no action alters, a search moves to the first match ahead or changes nothing, and no
two successful searches have come to the same original instruction. -/
theorem afterAll_zipper (original : List Instruction) (actions : List Action) :
    let c := afterAll actions { code := original }
    (∀ k ∈ c.position, k < c.code.length) ∧ c.start ≤ c.code.length ∧
      c.current?.isSome = c.position.isSome ∧ c.ahead <:+ original ∧
      (∀ p, (c.goto p).1 = c.ahead.any p ∧ ((c.goto p).1 = false → (c.goto p).2 = c) ∧
        ∀ front i rest, c.ahead = front ++ i :: rest → (∀ j ∈ front, p j = false) → p i →
          (c.goto p).2 = { c with position := some (c.start + front.length) }) ∧
      (∀ a : Action, (a.after c).ahead <:+ c.ahead ∧ c.ahead <:+ (a.after c).code ∧
        (a.finds c = false → (a.after c).ahead = c.ahead)) ∧
      ∃ places : List Nat, Tracked.landings actions (Tracked.start original) =
          places.map (fun m ↦ (some m, original[m]?)) ∧
        places.Nodup ∧ ∀ m ∈ places, m < original.length := by
  intro c
  have hstart := Tracked.ahead_start original
  obtain ⟨hbounds, hahead⟩ := afterAll_ahead hstart.inBounds actions
  obtain ⟨places, hplaces, hordered, hlt⟩ := hstart.exists_landings actions
  refine ⟨hbounds, hbounds.start_le, hbounds.isSome_current?, hahead, fun p ↦ ⟨?_, ?_, ?_⟩,
    fun a ↦ ?_, places, hplaces, hordered.imp Nat.ne_of_lt, fun m hm ↦ (hlt m hm).2⟩
  · rcases goto_cases p c with ⟨hnone, hgoto⟩ | ⟨front, i, rest, hsplit, -, hi, hgoto⟩
    · rw [hgoto, eq_comm, List.any_eq_false]
      simpa using hnone
    · rw [hgoto, hsplit, List.any_append, List.any_cons, hi, Bool.true_or, Bool.or_true]
  · intro hfails
    rcases goto_cases p c with ⟨-, hgoto⟩ | ⟨front, i, rest, -, -, -, hgoto⟩
    · rw [hgoto]
    · rw [hgoto] at hfails
      cases hfails
  · intro front i rest hsplit hfront hi
    rw [goto_of_first hsplit hfront hi]
  · obtain ⟨-, hback, hcode⟩ := a.after_ahead hbounds
    exact ⟨hback, hcode, a.ahead_of_finds_eq_false hbounds⟩

/-- The second search looks behind what was removed, and the third behind what was put in. -/
example : Tracked.landings
      [.goto (· = .nop), .remove, .goto (· = .nop), .insert .nop, .goto (· = .nop)]
      (.start [.nop, .nop, .ret, .nop]) =
    [(some 0, some .nop), (some 1, some .nop), (some 3, some .nop)] := by decide

end Cursor

end HookPatch
