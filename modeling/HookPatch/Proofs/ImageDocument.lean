import HookPatch.Proofs.ImageFile
import HookPatch.Proofs.Json.Shape

namespace HookPatch

open Json

namespace Instruction

/-- A call is an object with one key, under which its fields stand; other instructions do not vary. -/
def shape : Shape :=
  (Shape.record [.required "target" .rigid, .required "argc" .rigid]).variant "Call"

theorem shape_suits : shape.Suits ofJson? := by
  have hoperand : (Shape.record [.required "target" .rigid, .required "argc" .rigid]).Suits
      (ofOperand? "Call") :=
    .record (by decide)
      (reads_cons (.required _ (.rigid text?)) fun target ↦
        reads_cons (.required _ (.rigid uint16?)) fun argc ↦ reads_nil (call target argc))
      (fun _ ↦ rfl) (fun _ ↦ rfl)
  refine .variant (fun _ ↦ rfl) ?_ hoperand
  rintro ⟨_ | _, _⟩ _ _ <;> rfl

end Instruction

def Local.shape : Shape := .record [.required "name" .rigid, .required "index" .rigid]

theorem Local.shape_suits : Local.shape.Suits Local.ofJson? :=
  .record (by decide)
    (reads_cons (.required _ (.rigid text?)) fun name ↦
      reads_cons (.required _ (.rigid uint32?)) fun index ↦ reads_nil { name, index })
    (fun _ ↦ rfl) (fun _ ↦ rfl)

def CodeUnit.shape : Shape :=
  .record [.required "name" .rigid,
    .optional "instructions" Instruction.shape.items (.array []),
    .optional "arguments_count" .rigid (.integer 0), .optional "locals_count" .rigid (.integer 0),
    .optional "locals" Local.shape.items (.array []), .optional "parent" .rigid .null,
    .optional "children" .rigid (.array [])]

theorem CodeUnit.shape_suits : CodeUnit.shape.Suits CodeUnit.ofJson? :=
  .record (by decide)
    (reads_cons (.required _ (.rigid text?)) fun name ↦
      reads_cons (.optional _ Instruction.shape_suits.items rfl) fun body ↦
      reads_cons (.optional _ (.rigid uint16?) rfl) fun arity ↦
      reads_cons (.optional _ (.rigid uint16?) rfl) fun localCount ↦
      reads_cons (.optional _ Local.shape_suits.items rfl) fun locals ↦
      reads_cons (.optional _ (.rigid (nullable? text?)) rfl) fun parent ↦
      reads_cons (.optional _ (.rigid (list? text?)) rfl) fun children ↦
      reads_nil { name, body, arity, localCount, locals, parent, children })
    (fun _ ↦ rfl) (fun _ ↦ rfl)

def Declaration.shape : Shape := .record [.required "name" .rigid, .optional "code" .rigid .null]

theorem Declaration.shape_suits : Declaration.shape.Suits Declaration.ofJson? :=
  .record (by decide)
    (reads_cons (.required _ (.rigid text?)) fun name ↦
      reads_cons (.optional _ (.rigid (nullable? text?)) rfl) fun code ↦ reads_nil { name, code })
    (fun _ ↦ rfl) (fun _ ↦ rfl)

def NativeFunction.shape : Shape :=
  .record [.required "name" .rigid, .required "ext_name" .rigid, .required "kind" .rigid,
    .required "id" .rigid, .optional "argc" .rigid (.integer 0)]

theorem NativeFunction.shape_suits : NativeFunction.shape.Suits NativeFunction.ofJson? :=
  .record (by decide)
    (reads_cons (.required _ (.rigid text?)) fun name ↦
      reads_cons (.required _ (.rigid text?)) fun symbol ↦
      reads_cons (.required _ (.rigid uint32?)) fun kind ↦
      reads_cons (.required _ (.rigid uint32?)) fun id ↦
      reads_cons (.optional _ (.rigid uint16?) rfl) fun argc ↦
      reads_nil { name, symbol, kind, id, argc })
    (fun _ ↦ rfl) (fun _ ↦ rfl)

def Library.shape : Shape :=
  .record [.required "filename" .rigid,
    .optional "functions" NativeFunction.shape.items (.array [])]

theorem Library.shape_suits : Library.shape.Suits Library.ofJson? :=
  .record (by decide)
    (reads_cons (.required _ (.rigid text?)) fun file ↦
      reads_cons (.optional _ NativeFunction.shape_suits.items rfl) fun functions ↦
      reads_nil { file, functions })
    (fun _ ↦ rfl) (fun _ ↦ rfl)

def Extension.shape : Shape :=
  .record [.required "name" .rigid, .optional "version" .rigid (text ""),
    .optional "files" Library.shape.items (.array [])]

theorem Extension.shape_suits : Extension.shape.Suits Extension.ofJson? :=
  .record (by decide)
    (reads_cons (.required _ (.rigid text?)) fun name ↦
      reads_cons (.optional _ (.rigid text?) rfl) fun version ↦
      reads_cons (.optional _ Library.shape_suits.items rfl) fun libraries ↦
      reads_nil { name, version, libraries })
    (fun _ ↦ rfl) (fun _ ↦ rfl)

namespace Image

def shape : Shape :=
  .record [.required "code" CodeUnit.shape.items,
    .optional "functions" Declaration.shape.items (.array []),
    .optional "extensions" Extension.shape.items (.array [])]

theorem shape_suits : shape.Suits ofJson? :=
  .record (by decide)
    (reads_cons (.required _ CodeUnit.shape_suits.items) fun units ↦
      reads_cons (.optional _ Declaration.shape_suits.items rfl) fun functions ↦
      reads_cons (.optional _ Extension.shape_suits.items rfl) fun extensions ↦
      reads_nil { units, functions, extensions })
    (fun _ ↦ rfl) (fun _ ↦ rfl)

/-- Whether a file has a document in it, as it stands or in a frame. -/
def Holds (z : Zstd) (bytes document : ByteArray) : Prop :=
  bytes = document ∨ isFrame bytes ∧ z.decode? bytes = some document

variable {z : Zstd} {bytes document : ByteArray} {j : Json}

theorem unpack?_of_holds (hbytes : Holds z bytes document)
    (h : Spelled j (glyphsOfBytes document)) : unpack? z bytes = some document := by
  rcases hbytes with rfl | ⟨hframe, hcontent⟩
  · rw [unpack?, isFrame_of_spelled h]
    rfl
  · rw [unpack?, if_pos hframe, hcontent]

theorem load_of_spelled {t : FileTree} {path : Path} (hread : t.read path = .ok bytes)
    (hbytes : Holds z bytes document) (h : Spelled j (glyphsOfBytes document)) :
    load z t path = match ofJson? j with
      | none => .error (.malformed path)
      | some image => .ok image := by
  cases hj : ofJson? j <;>
    simp only [load, hread, decode, unpack?_of_holds hbytes h, ofBytes?, ofGlyphs?_of_spelled h,
      Option.bind_some, hj]

theorem holds_of_encode? (hz : z.Lawful) {image : Image} {format : ImageFormat}
    (h : image.encode? z format = some bytes) :
    ∃ document, Holds z bytes document ∧ Spelled image.toJson (glyphsOfBytes document) := by
  cases format with
  | plain =>
    cases h
    refine ⟨_, .inl rfl, ?_⟩
    rw [glyphsOfBytes_toUTF8]
    exact spelled_pretty _
  | compressed level =>
    refine ⟨image.toJson.compact.toUTF8,
      .inr ⟨hz.isFrame_of_encode h, hz.decode?_of_encode h⟩, ?_⟩
    rw [glyphsOfBytes_toUTF8]
    exact spelled_compact _

/-- An image is read from its document however that is written and varied, and from no document that
is faulty. -/
theorem load_variation (z : Zstd) (image : Image) (path : Path) :
    (z.Lawful → ∀ format bytes, image.encode? z format = some bytes →
      ∃ document, Holds z bytes document ∧ Spelled image.toJson (glyphsOfBytes document)) ∧
    ∀ (t : FileTree) (bytes document : ByteArray) (j : Json),
      t.read path = .ok bytes → Holds z bytes document → Spelled j (glyphsOfBytes document) →
      (Relation.ReflTransGen shape.edit image.toJson j → load z t path = .ok image) ∧
      (shape.fault j → load z t path = .error (.malformed path)) := by
  refine ⟨fun hz format bytes ↦ holds_of_encode? hz, ?_⟩
  intro t bytes document j hread hbytes hspelled
  rw [load_of_spelled hread hbytes hspelled]
  refine ⟨fun hedits ↦ ?_, fun hfault ↦ ?_⟩
  · rw [shape_suits.edits hedits (ofJson?_toJson image)]
  · rw [shape_suits.fault hfault]

def calling : Image where
  units := [{ name := "main", body := [.call "main" 0] }]

/-- The document of `calling` in another order, without its functions and with a key that means
nothing. -/
def callingVaried : Json :=
  record [("note", .array [.string none, record [("code", .null)]]),
    ("code", .array [record [
      ("instructions",
        .array [record [("Call", record [("argc", .integer 0), ("target", text "main")])]]),
      ("name", text "main"), ("arguments_count", .integer 0), ("locals_count", .integer 0),
      ("locals", .array [])]]),
    ("extensions", .array [])]

theorem edits_calling : Relation.ReflTransGen shape.edit calling.toJson callingVaried := by
  have hcall : Instruction.shape.edit (Instruction.toJson (.call "main" 0))
      (record [("Call", record [("argc", .integer 0), ("target", text "main")])]) :=
    .inside (.reorder (.swap _ _ _))
  have hunit {j j' : Json} (h : CodeUnit.shape.edit j j')
      (members : List (Option String × Json)) :
      shape.edit (.object ((some "code", .array [j]) :: members))
        (.object ((some "code", .array [j']) :: members)) :=
    .inside List.mem_cons_self (@Shape.ItemEdit.item _ [] [] _ _ h)
  refine .head (hunit (.reorder (.swap _ _ _)) _) ?_
  refine .head (hunit (.inside (List.mem_cons_of_mem _ List.mem_cons_self)
    (@Shape.ItemEdit.item _ [] [] _ _ hcall)) _) ?_
  refine .head (.reorder (.swap _ _ _)) ?_
  refine .head (.leaveOut (List.mem_cons_of_mem _ List.mem_cons_self) rfl) ?_
  exact .single (.add (by decide))

def unnamed : Json := record [("code", .array [record []])]

theorem fault_unnamed : shape.fault unnamed :=
  .inside List.mem_cons_self List.mem_cons_self
    (.item List.mem_cons_self (.missing List.mem_cons_self rfl (by decide)))

def oneFile (content : ByteArray) : FileTree where
  entries := [(["game.img"], .file content)]

theorem load_variation_calling :
    load quotingZstd (oneFile ("\r\n\t" ++ callingVaried.pretty).toUTF8) ⟨"game.img"⟩ =
        .ok calling ∧
      load quotingZstd (oneFile unnamed.compact.toUTF8) ⟨"game.img"⟩ =
        .error (.malformed ⟨"game.img"⟩) ∧
      load quotingZstd (oneFile quotingFrame) ⟨"game.img"⟩ = .ok quoting := by
  have hread (content : ByteArray) : (oneFile content).read ⟨"game.img"⟩ = .ok content := rfl
  have hblank : IsBlank (glyphsOfText "\r\n\t") := by simp [IsBlank, glyphsOfText, blanks]
  have hvaried : Spelled callingVaried
      (glyphsOfBytes ("\r\n\t" ++ callingVaried.pretty).toUTF8) := by
    rw [glyphsOfBytes_toUTF8, glyphsOfText_append]
    exact (spelled_pretty callingVaried).behind_blank hblank
  have hunnamed : Spelled unnamed (glyphsOfBytes unnamed.compact.toUTF8) := by
    rw [glyphsOfBytes_toUTF8]
    exact spelled_compact unnamed
  obtain ⟨-, hload⟩ := load_variation quotingZstd calling ⟨"game.img"⟩
  obtain ⟨hwritten, hload'⟩ := load_variation quotingZstd quoting ⟨"game.img"⟩
  have hframe : quoting.encode? quotingZstd (.compressed 3) = some quotingFrame :=
    Zstd.encode?_only 3 _ quotingFrame
  obtain ⟨document, hholds, hspelled⟩ := hwritten lawful_quotingZstd _ _ hframe
  refine ⟨?_, ?_, ?_⟩
  · exact (hload _ _ _ _ (hread _) (.inl rfl) hvaried).1 edits_calling
  · exact (hload _ _ _ _ (hread _) (.inl rfl) hunnamed).2 fault_unnamed
  · exact (hload' _ _ _ _ (hread _) hholds hspelled).1 .refl

end Image

end HookPatch
