import HookPatch.Proofs.Run.Inputs

namespace HookPatch

theorem Sha256.length_hex (message : ByteArray) : (Sha256.hex message).toList.length = 64 := by
  simp [Sha256.hex, Sha256.digest, Sha256.hexWord]

namespace ModInputs

variable {r r' : ModInputs}

theorem scriptHash_of_nil (h : r.scripts = []) : r.scriptHash = "" := by
  rw [scriptHash, h]
  rfl

theorem scriptHash_of_ne_nil (h : r.scripts ≠ []) :
    r.scriptHash = Sha256.hex r.scriptText.toUTF8 := by
  rw [scriptHash, if_neg (by simpa using h)]

theorem toList_text : r.text.toList =
    r.label.toList ++ (Sha256.hex r.build).toList ++ r.scriptHash.toList := by
  rw [text, String.toList_append, String.toList_append]

/-- Two mods whose parts of the fingerprint can be compared from their ends. -/
structure Aligned (r r' : ModInputs) : Prop where
  label : r.label.length = r'.label.length
  build : r.scripts = [] → r'.scripts ≠ [] → Sha256.hex r.build ≠ Sha256.hex r'.scriptText.toUTF8
  build' : r'.scripts = [] → r.scripts ≠ [] → Sha256.hex r'.build ≠ Sha256.hex r.scriptText.toUTF8

structure SameHashes (r r' : ModInputs) : Prop where
  build : Sha256.hex r.build = Sha256.hex r'.build
  scripts : r.scriptHash = r'.scriptHash

theorem Aligned.scripts_iff (h : r.Aligned r') {s s' : List Char}
    (heq : s ++ r.text.toList = s' ++ r'.text.toList) : r.scripts = [] ↔ r'.scripts = [] := by
  rw [toList_text, toList_text, ← List.append_assoc, ← List.append_assoc] at heq
  constructor
  · intro hr
    by_contra hr'
    rw [scriptHash_of_nil hr, String.toList_empty, List.append_nil, ← List.append_assoc,
      scriptHash_of_ne_nil hr'] at heq
    have hlength : (Sha256.hex r.build).toList.length =
        (Sha256.hex r'.scriptText.toUTF8).toList.length := by
      rw [Sha256.length_hex, Sha256.length_hex]
    exact h.build hr hr' (String.toList_inj.mp (List.append_inj_right' heq hlength))
  · intro hr'
    by_contra hr
    rw [scriptHash_of_nil hr', String.toList_empty, List.append_nil, ← List.append_assoc s',
      scriptHash_of_ne_nil hr] at heq
    have hlength : (Sha256.hex r'.build).toList.length =
        (Sha256.hex r.scriptText.toUTF8).toList.length := by
      rw [Sha256.length_hex, Sha256.length_hex]
    exact h.build' hr' hr (String.toList_inj.mp (List.append_inj_right' heq.symm hlength))

theorem length_scriptHash (h : r.scripts = [] ↔ r'.scripts = []) :
    r.scriptHash.toList.length = r'.scriptHash.toList.length := by
  by_cases hr : r.scripts = []
  · rw [scriptHash_of_nil hr, scriptHash_of_nil (h.mp hr)]
  · rw [scriptHash_of_ne_nil hr, scriptHash_of_ne_nil (fun hr' ↦ hr (h.mpr hr')), Sha256.length_hex,
      Sha256.length_hex]

theorem Aligned.append_text (h : r.Aligned r') {s s' : List Char}
    (heq : s ++ r.text.toList = s' ++ r'.text.toList) : s = s' ∧ r.SameHashes r' := by
  have hscripts := length_scriptHash (h.scripts_iff heq)
  have hbuild : (Sha256.hex r.build).toList.length = (Sha256.hex r'.build).toList.length := by
    rw [Sha256.length_hex, Sha256.length_hex]
  have hlabel : r.label.toList.length = r'.label.toList.length := by
    rw [String.length_toList, String.length_toList, h.label]
  rw [toList_text, toList_text, ← List.append_assoc, ← List.append_assoc, ← List.append_assoc,
    ← List.append_assoc] at heq
  obtain ⟨heq, hscripts⟩ := List.append_inj' heq hscripts
  obtain ⟨heq, hbuild⟩ := List.append_inj' heq hbuild
  obtain ⟨heq, -⟩ := List.append_inj' heq hlabel
  exact ⟨heq, String.toList_inj.mp hbuild, String.toList_inj.mp hscripts⟩

theorem sameHashes_of_join {rs rs' : List ModInputs} (h : List.Forall₂ Aligned rs rs')
    (heq : String.join (rs.map text) = String.join (rs'.map text)) :
    List.Forall₂ SameHashes rs rs' := by
  have heq : (rs.flatMap fun r ↦ r.text.toList) = rs'.flatMap fun r ↦ r.text.toList := by
    simpa [String.toList_join, List.flatMap_map] using congrArg String.toList heq
  -- only the hashes at the end have a known length, so the mods are taken from the last one on
  rw [← List.forall₂_reverse_iff] at h ⊢
  rw [← rs.reverse_reverse, ← rs'.reverse_reverse] at heq
  generalize rs.reverse = xs at h heq ⊢
  generalize rs'.reverse = ys at h heq ⊢
  induction h with
  | nil => exact .nil
  | cons hr h ih =>
    rw [List.reverse_cons, List.reverse_cons, List.flatMap_append, List.flatMap_append,
      List.flatMap_singleton, List.flatMap_singleton] at heq
    obtain ⟨heq, hr⟩ := hr.append_text heq
    exact .cons hr (ih heq)

section Scripts

theorem append_zero_inj {x y u v : List Char} (hx : '\x00' ∉ x) (hy : '\x00' ∉ y)
    (h : x ++ '\x00' :: u = y ++ '\x00' :: v) : x = y ∧ u = v := by
  induction x generalizing y with
  | nil =>
    cases y with
    | nil => exact ⟨rfl, List.tail_eq_of_cons_eq h⟩
    | cons c y =>
      rw [List.nil_append, List.cons_append, List.cons.injEq] at h
      exact absurd (h.1 ▸ List.mem_cons_self) hy
  | cons c x ih =>
    cases y with
    | nil =>
      rw [List.nil_append, List.cons_append, List.cons.injEq] at h
      exact absurd (h.1 ▸ List.mem_cons_self) hx
    | cons d y =>
      rw [List.cons_append, List.cons_append, List.cons.injEq] at h
      obtain ⟨rfl, h⟩ := h
      obtain ⟨rfl, rfl⟩ := ih (fun hx' ↦ hx (List.mem_cons_of_mem _ hx'))
        (fun hy' ↦ hy (List.mem_cons_of_mem _ hy')) h
      exact ⟨rfl, rfl⟩

def record (s : String × ByteArray) : List Char :=
  s.1.toList ++ '\x00' :: (Sha256.hex s.2).toList

theorem toList_scriptText (r : ModInputs) : r.scriptText.toList = r.scripts.flatMap record := by
  rw [scriptText, String.toList_join, List.flatMap_map]
  refine congrArg (List.flatMap · r.scripts) (funext fun s ↦ ?_)
  simp [record]

theorem records_inj {ss ss' : List (String × ByteArray)} (hss : ∀ s ∈ ss, '\x00' ∉ s.1.toList)
    (hss' : ∀ s ∈ ss', '\x00' ∉ s.1.toList) (h : ss.flatMap record = ss'.flatMap record) :
    List.Forall₂ (fun s s' ↦ s.1 = s'.1 ∧ Sha256.hex s.2 = Sha256.hex s'.2) ss ss' := by
  induction ss generalizing ss' with
  | nil =>
    cases ss' with
    | nil => exact .nil
    | cons s' ss' => simp [record] at h
  | cons s ss ih =>
    cases ss' with
    | nil => simp [record] at h
    | cons s' ss' =>
      rw [List.forall_mem_cons] at hss hss'
      rw [List.flatMap_cons, List.flatMap_cons, record, record, List.append_assoc, List.append_assoc,
        List.cons_append, List.cons_append] at h
      obtain ⟨hname, h⟩ := append_zero_inj hss.1 hss'.1 h
      obtain ⟨hhash, h⟩ := List.append_inj h (by rw [Sha256.length_hex, Sha256.length_hex])
      exact .cons ⟨String.toList_inj.mp hname, String.toList_inj.mp hhash⟩ (ih hss.2 hss'.2 h)

end Scripts

end ModInputs

/-- Whether contents of the two lists have the same hash only if they are the same. -/
def NoCollision (cs cs' : List ByteArray) : Prop :=
  ∀ c ∈ cs, ∀ c' ∈ cs', Sha256.hex c = Sha256.hex c' → c = c'

theorem forall₂_imp_of_mem {α β : Type} {R S : α → β → Prop} {l : List α} {l' : List β}
    (h : List.Forall₂ R l l') (himp : ∀ a ∈ l, ∀ b ∈ l', R a b → S a b) : List.Forall₂ S l l' := by
  induction h with
  | nil => exact .nil
  | cons hR _ ih =>
    refine .cons (himp _ List.mem_cons_self _ List.mem_cons_self hR) (ih fun a ha b hb ↦ ?_)
    exact himp a (List.mem_cons_of_mem _ ha) b (List.mem_cons_of_mem _ hb)

namespace ModInputs

variable {r r' : ModInputs}

theorem hashed_of_ne_nil (h : r.scripts ≠ []) :
    r.hashed = r.build :: r.scriptText.toUTF8 :: r.scripts.map (·.2) := by
  rw [hashed, if_neg (by simpa using h)]

theorem mem_hashed_of_script {s : String × ByteArray} (h : s ∈ r.scripts) : s.2 ∈ r.hashed.tail := by
  rw [hashed_of_ne_nil (List.ne_nil_of_mem h)]
  exact List.mem_cons_of_mem _ (List.mem_map_of_mem h)

theorem scripts_nil_iff (h : r.scriptHash = r'.scriptHash) : r.scripts = [] ↔ r'.scripts = [] := by
  have hempty (r : ModInputs) : r.scripts = [] ↔ r.scriptHash = "" := by
    refine ⟨scriptHash_of_nil, fun h ↦ ?_⟩
    by_contra hr
    have hlength := Sha256.length_hex r.scriptText.toUTF8
    rw [← scriptHash_of_ne_nil hr, h] at hlength
    simp at hlength
  rw [hempty, hempty, h]

/-- Without collisions, the hash of all scripts determines their names and contents. -/
theorem scripts_eq (hhash : NoCollision r.hashed.tail r'.hashed.tail)
    (hzero : ∀ s ∈ r.scripts, '\x00' ∉ s.1.toList)
    (hzero' : ∀ s ∈ r'.scripts, '\x00' ∉ s.1.toList) (h : r.scriptHash = r'.scriptHash) :
    r.scripts = r'.scripts := by
  have hnil := scripts_nil_iff h
  by_cases hr : r.scripts = []
  · rw [hr, hnil.mp hr]
  have hr' : r'.scripts ≠ [] := fun hr' ↦ hr (hnil.mpr hr')
  have htext : r.scriptText = r'.scriptText := by
    rw [scriptHash_of_ne_nil hr, scriptHash_of_ne_nil hr'] at h
    refine String.toByteArray_inj.mp (hhash _ ?_ _ ?_ h)
    · simp [hashed_of_ne_nil hr]
    · simp [hashed_of_ne_nil hr']
  -- the text determines the names, and the hashes of the contents
  have hrecords := congrArg String.toList htext
  rw [toList_scriptText, toList_scriptText] at hrecords
  rw [← List.forall₂_eq_eq_eq]
  refine forall₂_imp_of_mem (records_inj hzero hzero' hrecords) fun s hs s' hs' ⟨hname, hcontent⟩ ↦ ?_
  exact Prod.ext hname (hhash _ (mem_hashed_of_script hs) _ (mem_hashed_of_script hs') hcontent)

theorem SameHashes.eq (hhash : NoCollision r.hashed r'.hashed)
    (hzero : ∀ s ∈ r.scripts, '\x00' ∉ s.1.toList)
    (hzero' : ∀ s ∈ r'.scripts, '\x00' ∉ s.1.toList) (h : r.SameHashes r') :
    r.build = r'.build ∧ r.scripts = r'.scripts := by
  refine ⟨hhash _ List.mem_cons_self _ List.mem_cons_self h.build, ?_⟩
  refine scripts_eq (fun c hc c' hc' ↦ ?_) hzero hzero' h.scripts
  exact hhash c (List.mem_of_mem_tail hc) c' (List.mem_of_mem_tail hc')

end ModInputs

end HookPatch
