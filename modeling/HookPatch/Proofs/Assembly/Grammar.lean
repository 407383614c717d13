import HookPatch.Proofs.Assembly.Literal
import HookPatch.Proofs.Text.Numeral

namespace HookPatch.Assembly

open Text

section Words

variable {s : List Char} {c : Char} {n : Nat} {m : Int}

def isWordChar (c : Char) : Bool := isIdentifierChar c || c = '+' || c = '-'

structure Word (s : List Char) : Prop where
  ne_nil : s ≠ []
  chars : ∀ c ∈ s, isWordChar c

theorem toNat_of_isWordChar (h : isWordChar c) : 32 < c.toNat ∧ c.toNat < 127 := by
  have hval : c.toNat = c.val.toNat := rfl
  have hkinds : c.isAlphanum = (c.isUpper || c.isLower || c.isDigit) := rfl
  have hupper : c.isUpper = decide (65 ≤ c.val ∧ c.val ≤ 90) := rfl
  have hlower : c.isLower = (decide (97 ≤ c.val) && decide (c.val ≤ 122)) := rfl
  have hdigit : c.isDigit = (decide (48 ≤ c.val) && decide (c.val ≤ 57)) := rfl
  simp only [isWordChar, isIdentifierChar, hkinds, hupper, hlower, hdigit, Bool.or_eq_true,
    Bool.and_eq_true, decide_eq_true_eq, UInt32.le_iff_toNat_le] at h
  rcases h with ((((((h | h) | h) | rfl) | rfl) | rfl) | rfl) | rfl
  · exact ⟨Nat.lt_of_lt_of_le (by decide) h.1, Nat.lt_of_le_of_lt h.2 (by decide)⟩
  · exact ⟨Nat.lt_of_lt_of_le (by decide) h.1, Nat.lt_of_le_of_lt h.2 (by decide)⟩
  · exact ⟨Nat.lt_of_lt_of_le (by decide) h.1, Nat.lt_of_le_of_lt h.2 (by decide)⟩
  all_goals decide

theorem not_isBlank_of_isWordChar (h : isWordChar c) : ¬ isBlank c := by
  intro hblank
  have hprinting := toNat_of_isWordChar h
  have hapart := toNat_of_isBlank hblank
  omega

theorem Word.not_isBlank (h : Word s) : ∀ c ∈ s, ¬ isBlank c :=
  fun c hc ↦ not_isBlank_of_isWordChar (h.chars c hc)

theorem Word.tight (h : Word s) : Tight s := tight_of_forall h.ne_nil h.not_isBlank

theorem Word.cons (hc : isWordChar c) (h : Word s) : Word (c :: s) where
  ne_nil := List.cons_ne_nil c s
  chars := List.forall_mem_cons.mpr ⟨hc, h.chars⟩

theorem isIdentifierChar_of_isDigit (h : c.isDigit) : isIdentifierChar c := by
  simp [isIdentifierChar, Char.isAlphanum, h]

theorem isIdentifier_iff : isIdentifier s ↔ s ≠ [] ∧ ∀ c ∈ s, isIdentifierChar c := by
  simp [isIdentifier]

theorem word_of_isIdentifier (h : isIdentifier s) : Word s where
  ne_nil := (isIdentifier_iff.mp h).1
  chars c hc := by simp [isWordChar, (isIdentifier_iff.mp h).2 c hc]

theorem isIdentifier_of_digits (h : Digits s n) : isIdentifier s :=
  isIdentifier_iff.mpr ⟨h.ne_nil, fun c hc ↦ isIdentifierChar_of_isDigit (h.isDigit c hc)⟩

theorem word_of_digits (h : Digits s n) : Word s := word_of_isIdentifier (isIdentifier_of_digits h)

theorem word_of_unsignedNumeral (h : UnsignedNumeral s n) : Word s := by
  cases h with
  | bare h => exact word_of_digits h
  | plus h => exact (word_of_digits h).cons (by decide)

theorem word_of_signedNumeral (h : SignedNumeral s m) : Word s := by
  cases h with
  | unsigned h => exact word_of_unsignedNumeral h
  | minus h => exact (word_of_digits h).cons (by decide)

theorem readIdentifier_eq_ok_iff {name : String} :
    readIdentifier s = .ok name ↔ isIdentifier name.toList ∧ s = name.toList := by
  rw [readIdentifier]
  constructor
  · intro h
    split at h
    · rename_i hs
      cases h
      rw [String.toList_ofList]
      exact ⟨hs, rfl⟩
    · cases h
  · rintro ⟨hname, rfl⟩
    rw [if_pos hname, String.ofList_toList]

end Words

def plainForms : List (String × Instruction) :=
  [("pop", .pop), ("add", .add), ("ret", .ret), ("exit", .exit), ("nop", .nop)]

inductive CallOperand : List Char → String → UInt16 → Prop
  | intro {target : String} {argc : UInt16} {count gap₁ gap₂ gap₃ gap₄ : List Char} :
      isIdentifier target.toList → UnsignedNumeral count argc.toNat →
      AllBlank gap₁ → AllBlank gap₂ → AllBlank gap₃ → AllBlank gap₄ →
      CallOperand (target.toList ++ gap₁ ++ '(' ::
        (gap₂ ++ "argc=".toList ++ gap₃ ++ count ++ gap₄ ++ [')'])) target argc

inductive Operand : String → List Char → Instruction → Prop
  | integer {s : List Char} {value : Int64} : SignedNumeral s value.toInt →
      Operand "push.l" s (.pushInt value)
  | string {content : List Char} {value : String} : Literal content value.toList →
      Operand "push.s" ('"' :: (content ++ ['"'])) (.pushString value)
  | function {name : String} : isIdentifier name.toList →
      Operand "push.f" name.toList (.pushFunction name)
  | argument {s : List Char} {index : UInt16} : UnsignedNumeral s index.toNat →
      Operand "push.a" s (.pushArgument index)
  | call {s : List Char} {target : String} {argc : UInt16} : CallOperand s target argc →
      Operand "call" s (.call target argc)

inductive Written : List Char → Instruction → Prop
  | operand {mnemonic : String} {gap s : List Char} {i : Instruction} : AllBlank gap → gap ≠ [] →
      Operand mnemonic s i → Written (mnemonic.toList ++ gap ++ s) i
  | plain {mnemonic : String} {i : Instruction} : (mnemonic, i) ∈ plainForms →
      Written mnemonic.toList i

section Reading

variable {mnemonic : String} {s gap : List Char} {i : Instruction}

theorem plain?_eq_some_iff : plain? mnemonic = some i ↔ (mnemonic, i) ∈ plainForms := by
  simp only [plain?, plainForms, List.mem_cons, Prod.mk.injEq, List.not_mem_nil, or_false]
  grind

theorem Operand.isIdentifier (h : Operand mnemonic s i) : isIdentifier mnemonic.toList := by
  cases h <;> decide

theorem tight_of_callOperand {target : String} {argc : UInt16} (h : CallOperand s target argc) :
    Tight s := by
  cases h with
  | @intro _ _ count gap₁ gap₂ gap₃ gap₄ htarget =>
    have hclose : Tight [')'] := tight_singleton (by decide)
    have htight := (word_of_isIdentifier htarget).tight.append hclose
      (gap₁ ++ '(' :: (gap₂ ++ "argc=".toList ++ gap₃ ++ count ++ gap₄))
    simpa only [List.append_assoc, List.cons_append] using htight

theorem tight_of_operand (h : Operand mnemonic s i) : Tight s := by
  cases h with
  | integer hs => exact (word_of_signedNumeral hs).tight
  | string =>
    have hquote : Tight ['"'] := tight_singleton (by decide)
    exact hquote.append hquote _
  | function hname => exact (word_of_isIdentifier hname).tight
  | argument hs => exact (word_of_unsignedNumeral hs).tight
  | call hs => exact tight_of_callOperand hs

theorem callOperand_of_readCall (hs : Tight s) (h : readCall s = .ok i) :
    ∃ target argc, CallOperand s target argc ∧ i = .call target argc := by
  simp only [readCall] at h
  split at h
  · rename_i name rest hsplit
    split at h
    · rename_i count hcount
      split at h
      · cases h
      · rename_i argc hargc
        obtain ⟨target, hread, hcall⟩ := except_bind_eq_ok_iff.mp h
        obtain ⟨htarget, hname⟩ := readIdentifier_eq_ok_iff.mp hread
        obtain ⟨inner, hinner, hstart⟩ := Option.bind_eq_some_iff.mp hcount
        obtain ⟨before, gap₁, hbefore, hgap₁, hname'⟩ := exists_trim name
        obtain ⟨gap₂, gap₅, hgap₂, hgap₅, hinner'⟩ := exists_trim inner
        obtain ⟨gap₃, gap₄, hgap₃, hgap₄, hcount'⟩ := exists_trim count
        have hsum : s = before ++ (target.toList ++ gap₁ ++ '(' :: (gap₂ ++ "argc=".toList ++ gap₃ ++
            trim count ++ (gap₄ ++ gap₅) ++ [')'])) := by
          rw [eq_of_splitAt? hsplit, eq_of_stripLast? hinner, hinner',
            ← stripStart?_eq_some_iff.mp hstart, hname', hname]
          nth_rewrite 1 [hcount']
          simp only [List.append_assoc]
        -- The operand has no blanks in front, so the name has none.
        obtain rfl := (hsum ▸ hs).left_eq_nil hbefore
        refine ⟨target, argc, ?_, (Except.ok.inj hcall).symm⟩
        rw [hsum]
        exact .intro htarget (readUInt16_eq_ok_iff.mp hargc) hgap₁ hgap₂ hgap₃ (hgap₄.append hgap₅)
    · cases h
  · cases h

theorem readCall_of_callOperand {target : String} {argc : UInt16} (h : CallOperand s target argc) :
    readCall s = .ok (.call target argc) := by
  obtain ⟨htarget, hcount, hgap₁, hgap₂, hgap₃, hgap₄⟩ := h
  rename_i count gap₁ gap₂ gap₃ gap₄
  have hopen : '(' ∉ target.toList ++ gap₁ := by
    rw [List.mem_append, not_or]
    exact ⟨fun hmem ↦ absurd ((isIdentifier_iff.mp htarget).2 _ hmem) (by decide),
      fun hmem ↦ absurd (hgap₁ _ hmem) (by decide)⟩
  have hname : trim (target.toList ++ gap₁) = target.toList := by
    rw [trim_append_allBlank _ hgap₁, (word_of_isIdentifier htarget).tight.trim_eq]
  have htight := (word_of_unsignedNumeral hcount).tight
  have hinner : trim (gap₂ ++ "argc=".toList ++ gap₃ ++ count ++ gap₄) =
      "argc=".toList ++ (gap₃ ++ count) := by
    have hargc : Tight "argc=".toList := ⟨'a', rfl, by decide, '=', rfl, by decide⟩
    have htrim := trim_append hgap₂ (hargc.append htight gap₃) hgap₄
    simpa only [List.append_assoc] using htrim
  have hargc : trim (gap₃ ++ count) = count := by
    have htrim := trim_append hgap₃ htight allBlank_nil
    rwa [List.append_nil] at htrim
  simp only [readCall, splitAt?_append hopen, hname, stripLast?_concat, Option.bind_some, hinner,
    stripStart?_append, hargc, readUInt16_eq_ok_iff.mpr hcount,
    readIdentifier_eq_ok_iff.mpr ⟨htarget, rfl⟩]
  rfl

theorem operand_of_readOperand (hs : Tight s) (h : readOperand mnemonic s = .ok i) :
    Operand mnemonic s i := by
  simp only [readOperand] at h
  split_ifs at h with hinteger hstring hfunction hargument hcall
  · subst hinteger
    split at h
    · rename_i hread
      cases h
      exact .integer (readInt64_eq_ok_iff.mp hread)
    · cases h
  · subst hstring
    obtain ⟨value, hread, rfl⟩ := except_map_eq_ok_iff.mp h
    obtain ⟨content, after, hliteral, hafter, rfl⟩ := readString_eq_ok_iff.mp hread
    have hsplit : '"' :: content ++ '"' :: after = '"' :: (content ++ ['"']) ++ after := by simp
    obtain rfl := (hsplit ▸ hs).right_eq_nil hafter
    exact .string hliteral
  · subst hfunction
    obtain ⟨name, hread, rfl⟩ := except_map_eq_ok_iff.mp h
    obtain ⟨hname, rfl⟩ := readIdentifier_eq_ok_iff.mp hread
    exact .function hname
  · subst hargument
    split at h
    · rename_i hread
      cases h
      exact .argument (readUInt16_eq_ok_iff.mp hread)
    · cases h
  · subst hcall
    obtain ⟨target, argc, hform, rfl⟩ := callOperand_of_readCall hs h
    exact .call hform
  · exact absurd (List.isEmpty_iff.mp ‹_›) hs.ne_nil
  · split at h <;> cases h

theorem readOperand_of_operand (h : Operand mnemonic s i) : readOperand mnemonic s = .ok i := by
  cases h with
  | integer hs => simp [readOperand, readInt64_eq_ok_iff.mpr hs]
  | string hliteral =>
    have hread := readString_eq_ok_iff.mpr ⟨_, [], hliteral, allBlank_nil, rfl⟩
    rw [readOperand, if_neg (by decide), if_pos rfl]
    exact except_map_eq_ok_iff.mpr ⟨_, hread, rfl⟩
  | function hname =>
    rw [readOperand, if_neg (by decide), if_neg (by decide), if_pos rfl]
    exact except_map_eq_ok_iff.mpr ⟨_, readIdentifier_eq_ok_iff.mpr ⟨hname, rfl⟩, rfl⟩
  | argument hs => simp [readOperand, readUInt16_eq_ok_iff.mpr hs]
  | call hs => simp [readOperand, readCall_of_callOperand hs]

theorem readOperand_nil_eq_ok_iff :
    readOperand mnemonic [] = .ok i ↔ (mnemonic, i) ∈ plainForms := by
  rw [← plain?_eq_some_iff]
  constructor
  · intro h
    rw [readOperand] at h
    split_ifs at h
    · cases h
    · cases h
    · cases h
    · cases h
    · cases h
    · split at h
      · cases h
      · rename_i hplain
        exact hplain.trans (congrArg some (Except.ok.inj h))
    · split at h <;> cases h
  · intro h
    simp only [plain?] at h
    split_ifs at h <;> subst mnemonic <;> cases h <;> rfl

theorem isIdentifier_of_mem_plainForms (h : (mnemonic, i) ∈ plainForms) :
    isIdentifier mnemonic.toList := by
  have hforms : ∀ form ∈ plainForms, isIdentifier form.1.toList := by decide
  exact hforms _ h

theorem tight_of_written (h : Written s i) : Tight s := by
  cases h with
  | operand _ _ h => exact (word_of_isIdentifier h.isIdentifier).tight.append (tight_of_operand h) _
  | plain h => exact (word_of_isIdentifier (isIdentifier_of_mem_plainForms h)).tight

theorem written_of_readOperand {text name rest : List Char} (htext : Tight text)
    (hsplit : splitBlank text = (name, rest))
    (h : readOperand (String.ofList name) (trim rest) = .ok i) : Written text i := by
  rcases splitBlank_cases text with ⟨heq, hnil⟩ | ⟨c, hc, heq⟩
  · simp only [hsplit] at heq hnil
    subst hnil
    have hplain := Written.plain (readOperand_nil_eq_ok_iff.mp h)
    rwa [String.toList_ofList, ← heq] at hplain
  · simp only [hsplit] at heq
    obtain ⟨before, after, hbefore, hafter, hrest⟩ := exists_trim rest
    have hgap : AllBlank (c :: before) := List.forall_mem_cons.mpr ⟨hc, hbefore⟩
    -- The text does not end in a blank, so there is an operand and nothing behind it.
    have htrim : trim rest ≠ [] := by
      intro hnil
      have hblank : AllBlank (c :: rest) := List.forall_mem_cons.mpr ⟨hc, trim_eq_nil_iff.mp hnil⟩
      cases (heq ▸ htext).right_eq_nil hblank
    have hsum : text = name ++ c :: before ++ trim rest ++ after := by
      nth_rewrite 1 [heq, hrest]
      simp only [List.append_assoc, List.cons_append]
    obtain rfl := (hsum ▸ htext).right_eq_nil hafter
    have hwritten := Written.operand hgap (List.cons_ne_nil _ _)
      (operand_of_readOperand (tight_trim htrim) h)
    rwa [String.toList_ofList, ← List.append_nil (_ ++ trim rest), ← hsum] at hwritten

theorem written_of_readInstruction (h : readInstruction s = .ok i) : Written (trim s) i := by
  have htrim : trim s ≠ [] := by
    intro hnil
    rw [readInstruction, hnil] at h
    cases h
  exact written_of_readOperand (tight_trim htrim) rfl h

theorem readInstruction_of_written {before after : List Char} (h : Written s i)
    (hbefore : AllBlank before) (hafter : AllBlank after) :
    readInstruction (before ++ s ++ after) = .ok i := by
  rw [readInstruction, trim_append hbefore (tight_of_written h) hafter]
  cases h with
  | @operand mnemonic gap s _ hgap hne h =>
    obtain ⟨c, gap, rfl⟩ := List.exists_cons_of_ne_nil hne
    obtain ⟨hc, hgap⟩ := List.forall_mem_cons.mp hgap
    have htrim := trim_append hgap (tight_of_operand h) allBlank_nil
    rw [List.append_nil] at htrim
    rw [List.append_assoc, List.cons_append,
      splitBlank_append (word_of_isIdentifier h.isIdentifier).not_isBlank hc]
    dsimp only
    rw [String.ofList_toList, htrim]
    exact readOperand_of_operand h
  | @plain mnemonic _ h =>
    rw [splitBlank_of_forall (word_of_isIdentifier (isIdentifier_of_mem_plainForms h)).not_isBlank]
    dsimp only
    rw [String.ofList_toList]
    exact readOperand_nil_eq_ok_iff.mpr h

/-- A text is read as an instruction if and only if it is that instruction as the grammar writes it,
with blanks around it. -/
theorem readInstruction_iff_written : readInstruction s = .ok i ↔
    ∃ before text after, s = before ++ text ++ after ∧ AllBlank before ∧ AllBlank after ∧
      Written text i := by
  constructor
  · intro h
    obtain ⟨before, after, hbefore, hafter, heq⟩ := exists_trim s
    exact ⟨before, trim s, after, heq, hbefore, hafter, written_of_readInstruction h⟩
  · rintro ⟨before, text, after, rfl, hbefore, hafter, h⟩
    exact readInstruction_of_written h hbefore hafter

example : readInstruction " call\tf  ( argc=  +01 ) \u2003".toList = .ok (.call "f" 1) := by
  decide +kernel

end Reading

end HookPatch.Assembly
