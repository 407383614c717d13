import HookPatch.Assembly.Source
import HookPatch.Proofs.Text.Blank
import HookPatch.Proofs.Text.Lines

namespace HookPatch.Assembly

open Text

def SourceError.later (n : Nat) (e : SourceError) : SourceError := { e with line := e.line + n }

theorem beforeComment_isPrefix (state : ScanState) (s : List Char) :
    beforeComment state s <+: s := by
  induction s generalizing state with
  | nil => exact List.prefix_refl []
  | cons c s ih =>
    rw [beforeComment]
    split
    · exact List.nil_prefix
    · exact List.cons_prefix_cons.mpr ⟨rfl, ih (state.next c)⟩

theorem beforeComment_append_allBlank {t : List Char} (ht : AllBlank t) (state : ScanState)
    (s : List Char) :
    ∃ t', AllBlank t' ∧ beforeComment state (s ++ t) = beforeComment state s ++ t' := by
  induction s generalizing state with
  | nil =>
    exact ⟨beforeComment state t, fun c hc ↦ ht c ((beforeComment_isPrefix state t).subset hc), rfl⟩
  | cons c s ih =>
    rw [List.cons_append, beforeComment, beforeComment]
    split
    · exact ⟨[], allBlank_nil, rfl⟩
    · obtain ⟨t', ht', heq⟩ := ih (state.next c)
      exact ⟨t', ht', by rw [heq, List.cons_append]⟩

section

variable (strictness : Strictness) (image : Image) (target : String)

theorem assembleLine_append_allBlank {t : List Char} (ht : AllBlank t) (s : List Char) :
    assembleLine strictness image target (s ++ t) = assembleLine strictness image target s := by
  obtain ⟨t', ht', heq⟩ := beforeComment_append_allBlank ht .code s
  rw [assembleLine, heq, trim_append_allBlank _ ht', assembleLine]

/-- A carriage return at the end of a line is blank, whether it belongs to the line end or not. -/
theorem assembleLine_endLine (held : List Char) :
    assembleLine strictness image target (endLine held) =
      assembleLine strictness image target held.reverse := by
  unfold endLine
  split
  · rename_i held
    have hreturn : AllBlank ['\r'] := List.forall_mem_singleton.mpr (by decide)
    rw [List.reverse_cons, assembleLine_append_allBlank _ _ _ hreturn]
  · rfl

theorem assembleLines_feed (held s : List Char) (number : Nat) (done : List Instruction) :
    assembleLines strictness image target number done (linesAfter held (s ++ ['\n'])) =
      assembleLines strictness image target number done (linesAfter held s) := by
  induction s generalizing held number done with
  | nil =>
    cases held with
    | nil => rfl
    | cons c held =>
      change assembleLines strictness image target number done [endLine (c :: held)] =
        assembleLines strictness image target number done [(c :: held).reverse]
      simp only [assembleLines, assembleLine_endLine]
  | cons c s ih =>
    rw [List.cons_append, linesAfter, linesAfter]
    split
    · simp only [assembleLines, ih]
    · exact ih (c :: held) number done

theorem assembleLines_append (number : Nat) (done : List Instruction) (ls ls' : List (List Char)) :
    assembleLines strictness image target number done (ls ++ ls') =
      (assembleLines strictness image target number done ls).bind fun body ↦
        assembleLines strictness image target (number + ls.length) body.reverse ls' := by
  induction ls generalizing number done with
  | nil => simp [assembleLines, Except.bind]
  | cons s ls ih =>
    have hcount : number + (s :: ls).length = number + 1 + ls.length := by
      rw [List.length_cons]
      omega
    rw [List.cons_append, assembleLines, assembleLines, hcount]
    cases assembleLine strictness image target s with
    | error cause => rfl
    | ok line =>
      cases line with
      | none => exact ih (number + 1) done
      | some i => exact ih (number + 1) (i :: done)

theorem assembleLines_later (number n : Nat) (done before : List Instruction)
    (ls : List (List Char)) :
    assembleLines strictness image target (number + n) (done ++ before) ls =
      ((assembleLines strictness image target number done ls).map (before.reverse ++ ·)).mapError
        (SourceError.later n) := by
  induction ls generalizing number done with
  | nil => simp [assembleLines, Except.map, Except.mapError]
  | cons s ls ih =>
    rw [assembleLines, assembleLines, Nat.add_right_comm]
    cases assembleLine strictness image target s with
    | error cause => rfl
    | ok line =>
      cases line with
      | none => exact ih (number + 1) done
      | some i => exact ih (number + 1) (i :: done)

end

/-- Two sources with a line feed between them are assembled one after the other. -/
theorem assemble_append (strictness : Strictness) (image : Image) (target a b : String) :
    assemble strictness image target (a ++ "\n" ++ b) =
      match assemble strictness image target a, assemble strictness image target b with
      | .error e, _ => .error e
      | .ok body, .ok body' => .ok (body ++ body')
      | .ok _, .error e => .error { e with line := e.line + 1 + a.toList.count '\n' } := by
  have hsource : (a ++ "\n" ++ b).toList = a.toList ++ '\n' :: b.toList := by simp
  rw [assemble, hsource, lines, linesAfter_feed, assembleLines_append, assembleLines_feed,
    length_linesAfter_feed, ← lines, ← assemble]
  cases assemble strictness image target a with
  | error e => rfl
  | ok body =>
    have hlater := assembleLines_later strictness image target 1 (a.toList.count '\n' + 1) []
      body.reverse (lines b.toList)
    rw [List.nil_append, List.reverse_reverse, ← assemble] at hlater
    refine hlater.trans ?_
    cases assemble strictness image target b with
    | error e =>
      have hline : e.line + (a.toList.count '\n' + 1) = e.line + 1 + a.toList.count '\n' := by omega
      simp only [Except.map, Except.mapError, SourceError.later, hline]
    | ok body' => rfl

example : assemble .lenient {} "f" ("\r\n; a\r" ++ "\n" ++ "ret\n\nb") =
    .error ⟨5, .unknownMnemonic "b"⟩ := by decide +kernel

end HookPatch.Assembly
