import HookPatch.Proofs.Cursor.Zipper

namespace HookPatch

namespace Cursor

/-- Runs of the loop that edits after every search until one fails, with the number of its rounds. -/
inductive Loop (p : Instruction → Bool) (edit : Cursor → Cursor) : Nat → Cursor → Cursor → Prop
  | stop {c : Cursor} : (c.goto p).1 = false → Loop p edit 0 c (c.goto p).2
  | round {n : Nat} {c e : Cursor} :
      (c.goto p).1 → Loop p edit n (edit (c.goto p).2) e → Loop p edit (n + 1) c e

section Loop

variable {p : Instruction → Bool} {edit : Cursor → Cursor} {n m : Nat} {c d e : Cursor}

theorem next?_of_goto_fails (h : (c.goto p).1 = false) : c.next? p = none ∧ (c.goto p).2 = c := by
  rw [goto] at h ⊢
  cases hnext : c.next? p with
  | none => exact ⟨rfl, rfl⟩
  | some d => rw [hnext] at h; cases h

theorem next?_of_goto (h : (c.goto p).1) : c.next? p = some (c.goto p).2 := by
  rw [goto] at h ⊢
  cases hnext : c.next? p with
  | none => rw [hnext] at h; cases h
  | some d => rfl

theorem Loop.sweepFor_eq (h : Loop p edit n c e) {fuel : Nat} (hfuel : n ≤ fuel) :
    sweepFor p edit fuel c = (n, e) := by
  induction h generalizing fuel with
  | stop hfails =>
    obtain ⟨hnext, hstay⟩ := next?_of_goto_fails hfails
    rw [hstay]
    cases fuel with
    | zero => rfl
    | succ fuel => rw [sweepFor, hnext]
  | round hfinds _ ih =>
    cases fuel with
    | zero => omega
    | succ fuel => rw [sweepFor, next?_of_goto hfinds]; dsimp only; rw [ih (by omega)]

theorem Loop.unique (h : Loop p edit n c d) (h' : Loop p edit m c e) : n = m ∧ d = e := by
  have hleft := h.sweepFor_eq (Nat.le_max_left n m)
  have hright := h'.sweepFor_eq (Nat.le_max_right n m)
  exact Prod.mk.inj (hleft.symm.trans hright)

end Loop

/-- An edit that puts `out i` in the place of the current instruction `i`, and lets the next search
start behind it. -/
def Rewrites (edit : Cursor → Cursor) (out : Instruction → List Instruction) : Prop :=
  ∀ done i rest, let c := edit { code := done ++ i :: rest, position := some done.length }
    c.code = done ++ out i ++ rest ∧ c.start = done.length + (out i).length

theorem rewrites_replace (j : Instruction) : Rewrites (fun c ↦ (c.replace j).2) fun _ ↦ [j] := by
  intro done i rest
  let c : Cursor := { code := done ++ i :: rest, position := some done.length }
  have hlt : done.length < c.code.length := by simp [c]
  have hreplace : c.replace j = _ := replace_of_some rfl hlt j
  dsimp only
  rw [hreplace]
  exact ⟨by simp [c], rfl⟩

theorem rewrites_insert (j : Instruction) : Rewrites (fun c ↦ c.insert j) fun i ↦ [i, j] := by
  intro done i rest
  have hinsert := insertIdx_append_cons j done i rest
  exact ⟨by rw [List.append_assoc]; exact hinsert, rfl⟩

theorem rewrites_remove : Rewrites (fun c ↦ c.remove.2) fun _ ↦ [] := by
  intro done i rest
  let c : Cursor := { code := done ++ i :: rest, position := some done.length }
  have hlt : done.length < c.code.length := by simp [c]
  have hremove : c.remove = _ := remove_of_some rfl hlt
  dsimp only
  rw [hremove]
  exact ⟨by simp [c, List.eraseIdx_append_of_length_le], start_of_remove done.length⟩

section Rewriting

variable {edit : Cursor → Cursor} {out : Instruction → List Instruction}

theorem flatMap_ite_of_forall {p : Instruction → Bool} {l : List Instruction}
    (h : ∀ i ∈ l, p i = false) : (l.flatMap fun i ↦ if p i then out i else [i]) = l := by
  rw [List.flatMap_congr fun i hi ↦ by rw [h i hi, if_neg Bool.false_ne_true],
    List.flatMap_singleton']

theorem flatMap_ite_singleton (p : Instruction → Bool) (j : Instruction) (l : List Instruction) :
    (l.flatMap fun i ↦ if p i then [j] else [i]) = l.map fun i ↦ if p i then j else i := by
  rw [List.map_eq_flatMap]
  refine List.flatMap_congr fun i _ ↦ ?_
  split <;> rfl

theorem flatMap_ite_nil (p : Instruction → Bool) (l : List Instruction) :
    (l.flatMap fun i ↦ if p i then [] else [i]) = l.filter fun i ↦ !p i := by
  induction l with
  | nil => rfl
  | cons i l ih => rw [List.flatMap_cons, ih, List.filter_cons]; cases p i <;> rfl

theorem Rewrites.exists_loop (h : Rewrites edit out) (p : Instruction → Bool) {c : Cursor}
    {done rest : List Instruction} (hcode : c.code = done ++ rest) (hstart : c.start = done.length) :
    ∃ e, Loop p edit (rest.countP p) c e ∧
      e.code = done ++ rest.flatMap fun i ↦ if p i then out i else [i] := by
  -- The code may grow with every round, but what lies ahead of the cursor only gets shorter.
  induction hlength : rest.length using Nat.strongRecOn generalizing c done rest with
  | ind n ih =>
    have hahead : c.ahead = rest := by rw [ahead, hcode, hstart, List.drop_left]
    rcases goto_cases p c with ⟨hnone, hgoto⟩ | ⟨front, i, back, hsplit, hfront, hi, hgoto⟩
    · rw [hahead] at hnone
      have hstop : Loop p edit 0 c (c.goto p).2 := .stop (by rw [hgoto])
      rw [List.countP_eq_zero.mpr (by simpa using hnone), flatMap_ite_of_forall hnone]
      rw [hgoto] at hstop
      exact ⟨c, hstop, hcode⟩
    · obtain rfl : rest = front ++ i :: back := hahead.symm.trans hsplit
      obtain ⟨hcode', hstart'⟩ := h (done ++ front) i back
      have hfound : (c.goto p).2 =
          { code := done ++ front ++ i :: back, position := some (done ++ front).length } := by
        rw [hgoto, hcode, hstart, List.append_assoc, List.length_append]
      rw [← hfound] at hcode' hstart'
      rw [← List.length_append] at hstart'
      rw [List.length_append, List.length_cons] at hlength
      obtain ⟨e, hloop, hdone⟩ := ih back.length (by omega) hcode' hstart' rfl
      refine ⟨e, ?_, ?_⟩
      · have hcount : (front ++ i :: back).countP p = back.countP p + 1 := by
          rw [List.countP_append, List.countP_cons, List.countP_eq_zero.mpr (by simpa using hfront),
            hi, if_pos rfl, Nat.zero_add]
        rw [hcount]
        exact .round (by rw [hgoto]) hloop
      · rw [hdone, List.flatMap_append, List.flatMap_cons, flatMap_ite_of_forall hfront, hi,
          if_pos rfl]
        simp only [List.append_assoc]

end Rewriting

/-- The loop on a new cursor ends, after so many rounds and with the body `ys`, and a sweep does what
it does. -/
def Sweeps (p : Instruction → Bool) (edit : Cursor → Cursor) (xs ys : List Instruction)
    (rounds : Nat) : Prop :=
  ∃ e, e.code = ys ∧ sweep p edit { code := xs } = (rounds, e) ∧
    ∀ n d, Loop p edit n { code := xs } d ↔ n = rounds ∧ d = e

theorem Rewrites.sweeps {edit : Cursor → Cursor} {out : Instruction → List Instruction}
    (h : Rewrites edit out) (p : Instruction → Bool) (xs : List Instruction) :
    Sweeps p edit xs (xs.flatMap fun i ↦ if p i then out i else [i]) (xs.countP p) := by
  have hcode : ({ code := xs } : Cursor).code = [] ++ xs := rfl
  obtain ⟨e, hloop, hdone⟩ := h.exists_loop p hcode rfl
  refine ⟨e, hdone, hloop.sweepFor_eq List.countP_le_length, fun n d ↦ ⟨fun hother ↦ ?_, ?_⟩⟩
  · exact hother.unique hloop
  · intro heq
    obtain ⟨rfl, rfl⟩ := heq
    exact hloop

/-- Loops over the instructions that equal `i`, also where what they put in equals `i` again. -/
theorem loops_visit_once (xs : List Instruction) (i j : Instruction) :
    Sweeps (· = i) (fun c ↦ (c.replace j).2) xs (xs.map fun k ↦ if k = i then j else k)
        (xs.count i) ∧
      Sweeps (· = i) (fun c ↦ c.insert j) xs (xs.flatMap fun k ↦ if k = i then [k, j] else [k])
        (xs.count i) ∧
      Sweeps (· = i) (fun c ↦ c.remove.2) xs (xs.filter (· ≠ i)) (xs.count i) := by
  have hreplace := (rewrites_replace j).sweeps (decide <| · = i) xs
  have hinsert := (rewrites_insert j).sweeps (decide <| · = i) xs
  have hremove := rewrites_remove.sweeps (decide <| · = i) xs
  have hcount : xs.countP (decide <| · = i) = xs.count i :=
    List.countP_congr fun k _ ↦ by rw [decide_eq_true_eq, beq_iff_eq]
  rw [flatMap_ite_singleton, hcount] at hreplace
  rw [hcount] at hinsert
  rw [flatMap_ite_nil, hcount] at hremove
  simp only [decide_eq_true_eq] at hreplace hinsert
  simp only [← decide_not] at hremove
  exact ⟨hreplace, hinsert, hremove⟩

example : (sweep (· = .nop) (fun c ↦ c.insert .nop) { code := [.nop, .ret, .nop] }).2.code =
    [.nop, .nop, .ret, .nop, .nop] := by decide

end Cursor

end HookPatch
