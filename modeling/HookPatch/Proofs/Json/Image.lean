import HookPatch.Json.Image
import HookPatch.Proofs.Json.Members

namespace HookPatch

namespace Json

variable {α : Type} {f : Json → Option α} {g : α → Json}

theorem list?_map (h : ∀ a, f (g a) = some a) (l : List α) :
    list? f (.array (l.map g)) = some l := by
  rw [list?]
  induction l with
  | nil => rfl
  | cons a l ih =>
    rw [List.map_cons, List.mapM_cons, h, ih]
    rfl

theorem text?_text (s : String) : (text s).text? = some s := rfl

theorem nullable?_text (s : String) : nullable? text? (text s) = some (some s) := rfl

theorem uint16?_toNat (n : UInt16) : uint16? (.integer n.toNat) = some n := by
  have hn : natBelow? UInt16.size (.integer n.toNat) = some n.toNat := if_pos n.toNat_lt_size
  rw [uint16?, hn, Option.map_some, UInt16.ofNat_toNat]

theorem uint32?_toNat (n : UInt32) : uint32? (.integer n.toNat) = some n := by
  have hn : natBelow? UInt32.size (.integer n.toNat) = some n.toNat := if_pos n.toNat_lt_size
  rw [uint32?, hn, Option.map_some, UInt32.ofNat_toNat]

theorem int64?_toInt (n : Int64) : int64? (.integer n.toInt) = some n := by
  rw [int64?, between?, if_pos ⟨n.minValue_le_toInt, n.toInt_le⟩, Option.map_some,
    Int64.ofInt_toInt]

end Json

open Json

theorem Instruction.ofJson?_toJson (i : Instruction) : Instruction.ofJson? i.toJson = some i := by
  cases i with
  | call target argc =>
    have hoperand : Instruction.ofJson? (toJson (.call target argc)) = ofOperand? "Call"
        (record [("target", text target), ("argc", .integer argc.toNat)]) := rfl
    rw [hoperand]
    simp [ofOperand?, fields?_record, List.lookup_cons, required, text?_text, uint16?_toNat]
  | _ =>
    simp [toJson, record, text, ofJson?, ofOperand?, ofName?, text?, int64?_toInt, uint16?_toNat]

theorem Local.ofJson?_toJson (v : Local) : Local.ofJson? v.toJson = some v := by
  rw [toJson, ofJson?, fields?_record (by simp)]
  simp [required, text?_text, List.lookup_cons, uint32?_toNat]

theorem Declaration.ofJson?_toJson (f : Declaration) : Declaration.ofJson? f.toJson = some f := by
  rw [toJson, ofJson?, fields?_record (by cases f.code <;> simp [optionalField])]
  cases f with
  | mk name code =>
    cases code <;> simp [required, orDefault, nullable?_text, optionalField, text?_text,
      List.lookup_cons]

theorem NativeFunction.ofJson?_toJson (f : NativeFunction) :
    NativeFunction.ofJson? f.toJson = some f := by
  rw [toJson, ofJson?, fields?_record (by simp)]
  simp [required, orDefault, text?_text, List.lookup_cons, uint16?_toNat, uint32?_toNat]

theorem Library.ofJson?_toJson (f : Library) : Library.ofJson? f.toJson = some f := by
  have hfunctions := list?_map NativeFunction.ofJson?_toJson f.functions
  rw [toJson, ofJson?, fields?_record (by simp)]
  simp [required, orDefault, text?_text, List.lookup_cons, hfunctions]

theorem Extension.ofJson?_toJson (e : Extension) : Extension.ofJson? e.toJson = some e := by
  have hlibraries := list?_map Library.ofJson?_toJson e.libraries
  rw [toJson, ofJson?, fields?_record (by simp)]
  simp [required, orDefault, text?_text, List.lookup_cons, hlibraries]

theorem CodeUnit.ofJson?_toJson (u : CodeUnit) : CodeUnit.ofJson? u.toJson = some u := by
  have hbody := list?_map Instruction.ofJson?_toJson u.body
  have hlocals := list?_map Local.ofJson?_toJson u.locals
  have hchildren := list?_map text?_text u.children
  obtain ⟨name, body, arity, localCount, locals, parent, children⟩ := u
  rw [toJson, ofJson?, fields?_record (by cases parent <;> cases children <;> simp [optionalField])]
  cases parent <;> cases children <;>
    simp_all [required, orDefault, optionalField, text?_text, nullable?_text, List.lookup_cons,
      uint16?_toNat]

theorem Image.ofJson?_toJson (image : Image) : Image.ofJson? image.toJson = some image := by
  have hunits := list?_map CodeUnit.ofJson?_toJson image.units
  have hfunctions := list?_map Declaration.ofJson?_toJson image.functions
  have hextensions := list?_map Extension.ofJson?_toJson image.extensions
  rw [toJson, ofJson?, fields?_record (by simp)]
  simp [required, orDefault, List.lookup_cons, hunits, hfunctions, hextensions]

end HookPatch
