import HookPatch.Proofs.Assembly.Grammar
import HookPatch.Proofs.Text.Lines

namespace HookPatch.Assembly

open Text

/-- Whether the scanner takes nothing out of a text, and is not in a literal behind it. -/
def Passes (s : List Char) : Prop :=
  ∀ t, beforeComment .code (s ++ t) = s ++ beforeComment .code t

section Passing

variable {s t : List Char} {i : Instruction}

theorem Passes.append (hs : Passes s) (ht : Passes t) : Passes (s ++ t) := by
  intro u
  rw [List.append_assoc, hs, ht, List.append_assoc]

theorem passes_of_forall (h : ∀ c ∈ s, c ≠ '"' ∧ c ≠ ';') : Passes s := by
  intro t
  induction s with
  | nil => rfl
  | cons c s ih =>
    obtain ⟨hquote, hmark⟩ := h c List.mem_cons_self
    rw [List.cons_append, beforeComment, if_neg (fun h ↦ hmark h.2), ScanState.next, if_neg hquote,
      ih fun d hd ↦ h d (List.mem_cons_of_mem _ hd)]
    rfl

theorem passes_of_literal {content value : List Char} (h : Literal content value) :
    Passes ('"' :: (content ++ ['"'])) := by
  intro t
  rw [List.cons_append, List.append_assoc, List.singleton_append, beforeComment,
    if_neg (by decide), List.cons_append, List.append_assoc, List.singleton_append]
  exact congrArg _ (beforeComment_literal h t)

theorem passes_of_allBlank (h : AllBlank s) : Passes s := by
  refine passes_of_forall fun c hc ↦ ⟨?_, ?_⟩ <;>
  · rintro rfl
    exact absurd (h _ hc) (by decide)

theorem Word.passes (h : Word s) : Passes s := by
  refine passes_of_forall fun c hc ↦ ⟨?_, ?_⟩ <;>
  · rintro rfl
    exact absurd (h.chars _ hc) (by decide)

theorem passes_of_callOperand {target : String} {argc : UInt16} (h : CallOperand s target argc) :
    Passes s := by
  obtain ⟨htarget, hcount, hgap₁, hgap₂, hgap₃, hgap₄⟩ := h
  have hopen : Passes ['('] := passes_of_forall (by simp)
  have hclose : Passes [')'] := passes_of_forall (by simp)
  have hargc : Passes "argc=".toList := passes_of_forall (by simp)
  have hname := (word_of_isIdentifier htarget).passes.append (passes_of_allBlank hgap₁)
  have hinner := ((passes_of_allBlank hgap₂).append hargc).append (passes_of_allBlank hgap₃)
  have hrest := (hinner.append (word_of_unsignedNumeral hcount).passes).append
    (passes_of_allBlank hgap₄)
  exact hname.append (hopen.append (hrest.append hclose))

theorem passes_of_operand {mnemonic : String} (h : Operand mnemonic s i) : Passes s := by
  cases h with
  | integer hs => exact (word_of_signedNumeral hs).passes
  | string hliteral => exact passes_of_literal hliteral
  | function hname => exact (word_of_isIdentifier hname).passes
  | argument hs => exact (word_of_unsignedNumeral hs).passes
  | call hs => exact passes_of_callOperand hs

theorem passes_of_written (h : Written s i) : Passes s := by
  cases h with
  | operand hgap _ h =>
    have hmnemonic := (word_of_isIdentifier h.isIdentifier).passes
    exact (hmnemonic.append (passes_of_allBlank hgap)).append (passes_of_operand h)
  | plain h => exact (word_of_isIdentifier (isIdentifier_of_mem_plainForms h)).passes

theorem passes_of_readInstruction (h : readInstruction s = .ok i) : Passes s := by
  obtain ⟨before, after, hbefore, hafter, heq⟩ := exists_trim s
  have htrim := passes_of_written (written_of_readInstruction h)
  rw [heq]
  exact ((passes_of_allBlank hbefore).append htrim).append (passes_of_allBlank hafter)

theorem Passes.beforeComment_eq (h : Passes s) : beforeComment .code s = s := by
  have hs := h []
  rwa [beforeComment, List.append_nil] at hs

theorem Passes.beforeComment_comment (h : Passes s) (c : List Char) :
    beforeComment .code (s ++ ';' :: c) = s := by
  rw [h, beforeComment, if_pos ⟨rfl, rfl⟩, List.append_nil]

end Passing

section Lines

variable {s t : List Char} {i : Instruction} (image : Image) (target : String)

theorem assembleLine_of_beforeComment (hs : beforeComment .code s = t)
    (h : readInstruction t = .ok i) : assembleLine .lenient image target s = .ok (some i) := by
  have hread : readInstruction (trim t) = .ok i := by
    rw [readInstruction, trim_trim]
    exact h
  have hne : ¬ (trim t).isEmpty := by
    intro hempty
    rw [readInstruction, List.isEmpty_iff.mp hempty] at h
    cases h
  simp only [assembleLine, hs, hne, hread, bind, Except.bind]
  rfl

theorem assembleLine_of_read (h : readInstruction s = .ok i) :
    assembleLine .lenient image target s = .ok (some i) :=
  assembleLine_of_beforeComment image target (passes_of_readInstruction h).beforeComment_eq h

theorem assemble_of_assembleLine {strictness : Strictness} {source : String}
    (hne : source.toList ≠ []) (hfeed : '\n' ∉ source.toList)
    (h : assembleLine strictness image target source.toList = .ok (some i)) :
    assemble strictness image target source = .ok [i] := by
  rw [assemble, lines_of_not_mem hne hfeed, assembleLines, h]
  rfl

end Lines

/-- A line that is read as an instruction is assembled to it, with and without a comment. -/
theorem assemble_comment {text : String} {i : Instruction} (htext : '\n' ∉ text.toList)
    (h : readInstruction text.toList = .ok i) {comment : String} (hcomment : '\n' ∉ comment.toList)
    (image : Image) (target : String) :
    assemble .lenient image target text = .ok [i] ∧
      assemble .lenient image target (text ++ ";" ++ comment) = .ok [i] := by
  have hne : text.toList ≠ [] := by
    intro hnil
    rw [hnil] at h
    cases h
  have hsource : (text ++ ";" ++ comment).toList = text.toList ++ ';' :: comment.toList := by
    simp
  refine ⟨assemble_of_assembleLine image target hne htext (assembleLine_of_read image target h),
    assemble_of_assembleLine image target ?_ ?_ ?_⟩
  · rw [hsource]
    exact List.append_ne_nil_of_left_ne_nil hne _
  · rw [hsource, List.mem_append, List.mem_cons, not_or, not_or]
    exact ⟨htext, by decide, hcomment⟩
  · rw [hsource]
    exact assembleLine_of_beforeComment image target
      ((passes_of_readInstruction h).beforeComment_comment _) h

theorem assemble_comment_quoting :
    '\n' ∉ "push.s \"a;\\\"b\"\r".toList ∧ '\n' ∉ " \"c".toList ∧
      readInstruction "push.s \"a;\\\"b\"\r".toList = .ok (.pushString "a;\"b") ∧
      assemble .lenient {} "f" "push.s \"a;\\\"b\"\r" = .ok [.pushString "a;\"b"] ∧
      assemble .lenient {} "f" ("push.s \"a;\\\"b\"\r" ++ ";" ++ " \"c") =
        .ok [.pushString "a;\"b"] := by
  have hread : readInstruction "push.s \"a;\\\"b\"\r".toList = .ok (.pushString "a;\"b") := by
    decide +kernel
  exact ⟨by decide, by decide, hread, assemble_comment (by decide) hread (by decide) {} "f"⟩

end HookPatch.Assembly
