import HookPatch.Mod.Manifest
import HookPatch.Proofs.FileTree.Access
import HookPatch.Proofs.Json.Image
import HookPatch.Proofs.Json.Shape
import HookPatch.Proofs.Json.Writing

namespace HookPatch

namespace Decimal

theorem nearestDouble_le (n : Nat) : nearestDouble n ≤ 2 * n := by
  rcases Nat.eq_zero_or_pos n with rfl | hpos
  · decide
  have hunit : 1 <<< (n.log2 - 52) ≤ n := by
    rw [Nat.one_shiftLeft]
    exact (Nat.pow_le_pow_right Nat.two_pos (Nat.sub_le _ _)).trans (Nat.log2_self_le hpos.ne')
  rw [nearestDouble]
  generalize 1 <<< (n.log2 - 52) = unit at hunit
  have hcount : n / unit * unit ≤ n := Nat.div_mul_le_self n unit
  split_ifs
  · rw [Nat.add_mul, Nat.one_mul]
    omega
  · omega

theorem overflowsScaled_of_lt {n : Nat} (h : n < UInt64.size) (negative : Bool) :
    overflowsScaled ⟨negative, n, 0⟩ = false := by
  have hlead : leadingDigits (UInt64.size - 1) n = (n, 0) := by
    rw [leadingDigits, if_pos (Nat.le_sub_one_of_lt h)]
  have hbound : 2 * UInt64.size ≤ overflowBound := by decide +kernel
  have hone : nearestDouble (Nat.pow 10 0) = 1 := rfl
  have hnear : ¬ overflowBound ≤ nearestDouble n * nearestDouble (Nat.pow 10 0) := by
    have hn := nearestDouble_le n
    rw [hone, Nat.mul_one]
    omega
  rw [overflowsScaled, hlead]
  change (decide (n ≠ 0) && (decide (maxPower < 0) || decide (overflowBound ≤ _))) = false
  rw [decide_eq_false hnear, Bool.or_false, Bool.and_eq_false_iff]
  exact .inr rfl

end Decimal

namespace Json

/-- Values that a patch may have beside its fields. -/
inductive Plain : Json → Prop
  | null : Plain .null
  | bool (b : Bool) : Plain (.bool b)
  | text (s : String) : Plain (text s)
  | integer {n : Int} : Int64.minValue.toInt ≤ n → n < UInt64.size → Plain (.integer n)

theorem isTame_integer {n : Int} (h : n.natAbs < UInt64.size) (depth : Nat) :
    isTame depth (.integer n) := by
  rw [isTame, Decimal.overflowsScaled_of_lt h]
  rfl

theorem Plain.isTame {j : Json} (h : Plain j) (depth : Nat) : isTame depth j := by
  cases h with
  | integer hleast hgreatest =>
    have hbound : -(UInt64.size : Int) < Int64.minValue.toInt := by decide
    exact isTame_integer (by omega) depth
  | _ => rfl

theorem haveTame_eq_all (depth : Nat) (members : List (Option String × Json)) :
    haveTame depth members = members.all fun m ↦ m.1.isSome && isTame depth m.2 := by
  induction members with
  | nil => rfl
  | cons m members ih => rw [haveTame, ih, List.all_cons]

end Json

open Json

namespace Export

def shape : Shape :=
  .record [.required "name" .rigid, .required "argc" .rigid, .required "symbol" .rigid]

theorem shape_suits : shape.Suits ofJson? :=
  .record (by decide)
    (reads_cons (.required _ (.rigid text?)) fun name ↦
      reads_cons (.required _ (.rigid uint16?)) fun argc ↦
      reads_cons (.required _ (.rigid text?)) fun symbol ↦ reads_nil { name, argc, symbol })
    (fun _ ↦ rfl) (fun _ ↦ rfl)

theorem ofJson?_toJson (x : Export) : ofJson? x.toJson = some x := by
  rw [toJson, ofJson?, fields?_record (by simp)]
  simp [Json.required, text?_text, List.lookup_cons, uint16?_toNat]

end Export

namespace PatchStep

def fieldsOf? (op : String) : Option (List Field) :=
  if op = "hook_code" then some [.required "target" .rigid, .required "script" .rigid]
  else if op = "hook_function" then some [.required "target" .rigid, .required "script" .rigid]
  else if op = "hard_hook" then
    some [.required "target" .rigid, .required "script" .rigid, .required "argc" .rigid]
  else if op = "create_function" then
    some [.required "target" .rigid, .required "script" .rigid,
      .optional "argc" .rigid (.integer 0)]
  else none

/-- Beside the op, which stands anywhere, the fields vary as those of a record; what is added to them
has to be such that it can be kept. -/
inductive Edit : Json → Json → Prop
  | reorder {members members' : List (Option String × Json)} : members.Perm members' →
      Edit (.object members) (.object members')
  | inside {op : String} {fields : List Field} {members members' : List (Option String × Json)} :
      fieldsOf? op = some fields →
      (Shape.record fields).edit (.object members) (.object members') →
      some "op" ∉ members'.map Prod.fst → haveTame maxDepth members' →
      Edit (.object ((some "op", text op) :: members)) (.object ((some "op", text op) :: members'))

inductive HasOp (op : String) : Json → Prop
  | object {members : List (Option String × Json)} : (some "op", text op) ∈ members →
      HasOp op (.object members)
  | array {items : List Json} : HasOp op (.array (text op :: items))

inductive Fault : Json → Prop
  | unknown {j : Json} : (∀ op, HasOp op j → fieldsOf? op = none) → Fault j
  | inside {op : String} {fields : List Field} {members rest : List (Option String × Json)} :
      members.Perm ((some "op", text op) :: rest) → fieldsOf? op = some fields →
      (Shape.record fields).fault (.object rest) → Fault (.object members)
  | listed {op : String} {fields : List Field} {items : List Json} : fieldsOf? op = some fields →
      (Shape.record fields).fault (.array items) → Fault (.array (text op :: items))

def shape : Shape where
  edit := Edit
  fault := Fault

theorem suits_ofFields? {op : String} {fields : List Field} (h : fieldsOf? op = some fields) :
    (Shape.record fields).Suits (ofFields? op) := by
  rw [fieldsOf?] at h
  split_ifs at h with hsoft harity hhard hdefine
  · subst hsoft
    cases h
    exact .record (by decide)
      (reads_cons (.required _ (.rigid text?)) fun target ↦
        reads_cons (.required _ (.rigid text?)) fun script ↦ reads_nil (softHook target script))
      (fun _ ↦ rfl) (fun _ ↦ rfl)
  · subst harity
    cases h
    exact .record (by decide)
      (reads_cons (.required _ (.rigid text?)) fun target ↦
        reads_cons (.required _ (.rigid text?)) fun script ↦ reads_nil (arityHook target script))
      (fun _ ↦ rfl) (fun _ ↦ rfl)
  · subst hhard
    cases h
    exact .record (by decide)
      (reads_cons (.required _ (.rigid text?)) fun target ↦
        reads_cons (.required _ (.rigid text?)) fun script ↦
        reads_cons (.required _ (.rigid uint16?)) fun argc ↦ reads_nil (hardHook target script argc))
      (fun _ ↦ rfl) (fun _ ↦ rfl)
  · subst hdefine
    cases h
    exact .record (by decide)
      (reads_cons (.required _ (.rigid text?)) fun target ↦
        reads_cons (.required _ (.rigid text?)) fun script ↦
        reads_cons (.optional _ (.rigid uint16?) rfl) fun argc ↦
        reads_nil (defineFunction target script argc))
      (fun _ ↦ rfl) (fun _ ↦ rfl)

theorem ofFields?_of_unknown {op : String} (h : fieldsOf? op = none) (j : Json) :
    ofFields? op j = none := by
  rw [fieldsOf?] at h
  split_ifs at h with hsoft harity hhard hdefine
  rw [ofFields?, if_neg hsoft, if_neg harity, if_neg hhard, if_neg hdefine]

section Members

variable {members members' : List (Option String × Json)}

theorem ofJson?_object (op : String) (hnew : some "op" ∉ members.map Prod.fst) :
    ofJson? (.object ((some "op", text op) :: members)) =
      if haveTame maxDepth members then ofFields? op (.object members) else none := by
  have hrest : members.filter (·.1 ≠ some "op") = members := by
    refine List.filter_eq_self.mpr fun m hm ↦ ?_
    exact decide_eq_true fun heq ↦ hnew (heq ▸ List.mem_map_of_mem hm)
  have hall : ((some "op", text op) :: members).filter (·.1 ≠ some "op") = members := by
    rw [List.filter_cons_of_neg (by simp), hrest]
  simp only [ofJson?, member?_cons_self_of_not_mem hnew, hall]
  cases haveTame maxDepth members <;> rfl

theorem ofJson?_of_two_ops {op : String} (h : some "op" ∈ members.map Prod.fst) :
    ofJson? (.object ((some "op", text op) :: members)) = none := by
  simp only [ofJson?, member?_cons_self_of_mem h]
  rfl

theorem ofJson?_perm {step : PatchStep} (hperm : members.Perm members')
    (h : ofJson? (.object members) = some step) : ofJson? (.object members') = some step := by
  have hrest := hperm.filter (·.1 ≠ some "op")
  have htame : haveTame maxDepth (members'.filter (·.1 ≠ some "op")) =
      haveTame maxDepth (members.filter (·.1 ≠ some "op")) := by
    rw [haveTame_eq_all, haveTame_eq_all, hrest.all_eq]
  simp only [ofJson?, Option.bind_eq_bind, Option.bind_eq_some_iff] at h ⊢
  obtain ⟨value, hvalue, op, hop, _, hguard, hfields⟩ := h
  rw [← member?_perm hperm, htame]
  refine ⟨value, hvalue, op, hop, _, hguard, ?_⟩
  cases hkind : fieldsOf? op with
  | none =>
    rw [ofFields?_of_unknown hkind] at hfields
    cases hfields
  | some fields => exact (suits_ofFields? hkind).edit (.reorder hrest) hfields

theorem ofJson?_of_fault {op : String} {fields : List Field} (hkind : fieldsOf? op = some fields)
    (hfault : (Shape.record fields).fault (.object members)) :
    ofJson? (.object ((some "op", text op) :: members)) = none := by
  by_cases hop : some "op" ∈ members.map Prod.fst
  · exact ofJson?_of_two_ops hop
  · rw [ofJson?_object op hop]
    split_ifs
    · exact (suits_ofFields? hkind).fault hfault
    · rfl

end Members

theorem ofJson?_of_unknown {j : Json} (h : ∀ op, HasOp op j → fieldsOf? op = none) :
    ofJson? j = none := by
  have htext {value : Json} {op : String} (hop : value.text? = some op) : value = text op := by
    cases value <;> simp_all [text?, text]
  cases j with
  | object members =>
    by_contra hread
    obtain ⟨step, hread⟩ := Option.ne_none_iff_exists'.mp hread
    simp only [ofJson?, Option.bind_eq_bind, Option.bind_eq_some_iff] at hread
    obtain ⟨value, hvalue, op, hop, _, -, hfields⟩ := hread
    obtain ⟨v, rfl, hv⟩ := Option.bind_eq_some_iff.mp hop
    obtain rfl := htext hv
    rw [ofFields?_of_unknown (h op (.object (mem_of_member? hvalue)))] at hfields
    cases hfields
  | array items =>
    cases items with
    | nil => rfl
    | cons value items =>
      by_contra hread
      obtain ⟨step, hread⟩ := Option.ne_none_iff_exists'.mp hread
      simp only [ofJson?, Option.bind_eq_bind, Option.bind_eq_some_iff] at hread
      obtain ⟨_, -, op, hop, hfields⟩ := hread
      obtain rfl := htext hop
      rw [ofFields?_of_unknown (h op .array)] at hfields
      cases hfields
  | _ => rfl

theorem shape_suits : shape.Suits ofJson? where
  edit := by
    rintro _ _ step (hperm | ⟨hkind, hedit, hnew, htame⟩) hread
    · exact ofJson?_perm hperm hread
    · rename_i op fields members members'
      have hop : some "op" ∉ members.map Prod.fst := by
        intro hop
        rw [ofJson?_of_two_ops hop] at hread
        cases hread
      rw [ofJson?_object op hop] at hread
      rw [ofJson?_object op hnew, if_pos htame]
      split_ifs at hread
      exact (suits_ofFields? hkind).edit hedit hread
  fault := by
    rintro _ (hunknown | ⟨hperm, hkind, hfault⟩ | ⟨hkind, hfault⟩)
    · exact ofJson?_of_unknown hunknown
    · by_contra hread
      obtain ⟨step, hread⟩ := Option.ne_none_iff_exists'.mp hread
      have hnone := ofJson?_of_fault hkind hfault
      rw [ofJson?_perm hperm hread] at hnone
      cases hnone
    · rename_i op fields items
      have hop : (text op).text? = some op := rfl
      simp only [ofJson?, hop, Option.bind_eq_bind, Option.bind_some,
        (suits_ofFields? hkind).fault hfault]
      cases areTame maxDepth items <;> rfl

end PatchStep

theorem PatchStep.ofJson?_toJson (step : PatchStep) : ofJson? step.toJson = some step := by
  have hargc (argc : UInt16) : isTame maxDepth (.integer argc.toNat) := by
    refine isTame_integer ?_ _
    rw [Int.natAbs_natCast]
    exact argc.toNat_lt_size.trans (by decide)
  have htext (s : String) : isTame maxDepth (text s) := rfl
  cases step <;>
    simp [toJson, ofJson?, record, member?, Json.required, orDefault, text?_text, haveTame, hargc,
      htext, ofFields?, fields?, uint16?_toNat]

namespace Manifest

def shape : Shape :=
  .record [.optional "patches" PatchStep.shape.items (.array []),
    .optional "interop" Export.shape.items (.array [])]

theorem shape_suits : shape.Suits ofJson? :=
  .record (by decide)
    (reads_cons (.optional _ PatchStep.shape_suits.items rfl) fun patches ↦
      reads_cons (.optional _ Export.shape_suits.items rfl) fun interop ↦
      reads_nil { patches, interop })
    (fun _ ↦ rfl) (fun _ ↦ rfl)

theorem ofJson?_toJson (m : Manifest) : ofJson? m.toJson = some m := by
  have hpatches := list?_map PatchStep.ofJson?_toJson m.patches
  have hinterop := list?_map Export.ofJson?_toJson m.interop
  rw [toJson, ofJson?, fields?_record (by simp)]
  simp [orDefault, List.lookup_cons, hpatches, hinterop]

theorem load_of_spelled {t : FileTree} {path : Path} {s : String} {j : Json}
    (hread : t.readText path = .ok s) (h : Spelled j (glyphsOfText s)) :
    load t path = match ofJson? j with
      | none => .error { kind := .manifest, path, fault := .json }
      | some m => .ok m := by
  cases hj : ofJson? j <;>
    simp only [load, loadDocument, hread, ofText?, ofGlyphs?_of_spelled h, Option.bind_some, hj]

/-- A manifest comes back from its document however that is written and varied, and from no document
that is faulty. -/
theorem load_varied (m : Manifest) (path : Path) :
    Spelled m.toJson (glyphsOfText m.toJson.compact) ∧
    Spelled m.toJson (glyphsOfText m.toJson.pretty) ∧
    (∀ j, Plain j → isTame PatchStep.maxDepth j) ∧
    ∀ (t : FileTree) (s : String) (j : Json),
      t.readText path = .ok s → Spelled j (glyphsOfText s) →
      (Relation.ReflTransGen shape.edit m.toJson j → load t path = .ok m) ∧
      (shape.fault j → load t path = .error { kind := .manifest, path, fault := .json }) := by
  refine ⟨spelled_compact _, spelled_pretty _, fun j h ↦ h.isTame _,
    fun t s j hread hspelled ↦ ?_⟩
  rw [load_of_spelled hread hspelled]
  refine ⟨fun hedits ↦ ?_, fun hfault ↦ ?_⟩
  · rw [shape_suits.edits hedits (ofJson?_toJson m)]
  · rw [shape_suits.fault hfault]

def defining : Manifest where
  patches := [.defineFunction "f" "f.asm" 0]

/-- The document of `defining` with the op last, an unknown key, and nothing that is default. -/
def definingVaried : Json :=
  record [("patches", .array [record [("note", .integer 18446744073709551615), ("target", text "f"),
    ("script", text "f.asm"), ("op", text "create_function")]])]

theorem edits_defining : Relation.ReflTransGen shape.edit defining.toJson definingVaried := by
  have hpatch {j j' : Json} (h : PatchStep.shape.edit j j') :
      shape.edit (record [("patches", .array [j]), ("interop", .array [])])
        (record [("patches", .array [j']), ("interop", .array [])]) :=
    .inside List.mem_cons_self (@Shape.ItemEdit.item _ [] [] _ _ h)
  have htext (s : String) : isTame PatchStep.maxDepth (text s) := (Plain.text s).isTame _
  have hzero : isTame PatchStep.maxDepth (.integer 0) :=
    (Plain.integer (by decide) (by decide)).isTame _
  have hnote : isTame PatchStep.maxDepth (.integer 18446744073709551615) :=
    (Plain.integer (by decide) (by decide)).isTame _
  let op : Option String × Json := (some "op", text "create_function")
  let note : Option String × Json := (some "note", .integer 18446744073709551615)
  let argc : Option String × Json := (some "argc", .integer 0)
  let names : List (Option String × Json) :=
    [(some "target", text "f"), (some "script", text "f.asm")]
  have hargcFirst : PatchStep.shape.edit (.object (op :: (names ++ [argc])))
      (.object (op :: argc :: names)) :=
    .inside rfl (.reorder (List.perm_append_singleton argc names)) (by decide)
      (by simp [haveTame, names, argc, htext, hzero])
  have hwithoutArgc : PatchStep.shape.edit (.object (op :: argc :: names))
      (.object (op :: names)) :=
    .inside rfl (.leaveOut (List.mem_cons_of_mem _ (List.mem_cons_of_mem _ List.mem_cons_self)) rfl)
      (by decide) (by simp [haveTame, names, htext])
  have hnoteAdded : PatchStep.shape.edit (.object (op :: names)) (.object (op :: note :: names)) :=
    .inside rfl (.add (by decide)) (by decide) (by simp [haveTame, names, note, htext, hnote])
  have hopLast : PatchStep.shape.edit (.object (op :: note :: names))
      (.object (note :: (names ++ [op]))) :=
    .reorder (List.perm_append_singleton op (note :: names)).symm
  refine .head (hpatch hargcFirst) (.head (hpatch hwithoutArgc) ?_)
  refine .head (hpatch hnoteAdded) (.head (hpatch hopLast) ?_)
  refine .head (.reorder (.swap _ _ _)) ?_
  exact .single (.leaveOut (List.mem_cons_of_mem _ List.mem_cons_self) rfl)

def uncounted : Json :=
  record [("patches", .array [record [("op", text "hard_hook"), ("target", text "f"),
    ("script", text "f.asm")]])]

theorem fault_uncounted : shape.fault uncounted :=
  .inside List.mem_cons_self List.mem_cons_self
    (.item List.mem_cons_self (.inside (.refl _) rfl
      (.missing (List.mem_cons_of_mem _ (List.mem_cons_of_mem _ List.mem_cons_self)) rfl
        (by decide))))

def oneText (s : String) : FileTree where
  entries := [(["patches.json"], .file s.toUTF8)]

theorem load_varied_defining :
    load (oneText ("\n " ++ definingVaried.pretty)) ⟨"patches.json"⟩ = .ok defining ∧
      load (oneText uncounted.compact) ⟨"patches.json"⟩ =
        .error { kind := .manifest, path := ⟨"patches.json"⟩, fault := .json } := by
  have hread (s : String) : (oneText s).readText ⟨"patches.json"⟩ = .ok s :=
    FileTree.readText_eq_ok_iff.mpr ⟨s.toUTF8, rfl, fromUTF8?_toUTF8 s⟩
  have hblank : IsBlank (glyphsOfText "\n ") := by simp [IsBlank, glyphsOfText, blanks]
  have hvaried : Spelled definingVaried (glyphsOfText ("\n " ++ definingVaried.pretty)) := by
    rw [glyphsOfText_append]
    exact (spelled_pretty definingVaried).behind_blank hblank
  obtain ⟨-, -, -, hload⟩ := load_varied defining ⟨"patches.json"⟩
  exact ⟨(hload _ _ _ (hread _) hvaried).1 edits_defining,
    (hload _ _ _ (hread _) (spelled_compact uncounted)).2 fault_uncounted⟩

end Manifest

end HookPatch
