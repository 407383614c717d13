import HookPatch.ImageFile
import HookPatch.Proofs.FileTree.Access
import HookPatch.Proofs.Json.Image
import HookPatch.Proofs.Json.Writing

namespace HookPatch

namespace Json

theorem glyphsOfBytes_toUTF8 (s : String) : glyphsOfBytes s.toUTF8 = glyphsOfText s := by
  rw [glyphsOfBytes, fromUTF8?_toUTF8]

theorem ofBytes?_toUTF8 (s : String) : ofBytes? s.toUTF8 = ofText? s := by
  rw [ofBytes?, glyphsOfBytes_toUTF8, ofText?]

/-- A byte below 0x80 is a character of its own, whether or not the rest is text. -/
theorem glyphsOfBytes_paren {bytes : ByteArray} {rest : List UInt8}
    (h : bytes.data.toList = 0x28 :: rest) : ∃ s, glyphsOfBytes bytes = some '(' :: s := by
  rw [glyphsOfBytes]
  split
  · rename_i s hs
    obtain rfl : bytes = s.toByteArray := by
      rw [String.fromUTF8?] at hs
      split at hs <;> cases hs
      rfl
    have hencode : ['('].utf8Encode ++ ⟨rest.toArray⟩ = s.toList.utf8Encode := by
      rw [String.utf8Encode_toList]
      ext1
      rw [ByteArray.data_append, ← Array.toList_inj, h, Array.toList_append]
      rfl
    obtain ⟨s', hs'⟩ := List.isPrefix_of_utf8Encode_append_eq_utf8Encode _ hencode
    rw [glyphsOfText, ← hs']
    exact ⟨_, rfl⟩
  · have hfirst : firstChar? (0x28 :: rest) = some ('(', 1) := by
      have hparen : String.fromUTF8? ⟨[0x28].toArray⟩ = some "(" := fromUTF8?_toUTF8 "("
      have htake : (0x28 :: rest).take 1 = [0x28] := rfl
      rw [firstChar?, List.findSome?_cons, htake, hparen]
      rfl
    rw [h, glyphsFrom, hfirst]
    exact ⟨_, rfl⟩

end Json

namespace Image

/-- No document starts with a parenthesis, as each frame does. -/
theorem isFrame_of_spelled {j : Json} {document : ByteArray}
    (h : j.Spelled (Json.glyphsOfBytes document)) : isFrame document = false := by
  by_contra hframe
  rw [Bool.not_eq_false, isFrame, List.isPrefixOf_iff_prefix] at hframe
  obtain ⟨rest, hrest⟩ := hframe
  obtain ⟨s, hs⟩ := Json.glyphsOfBytes_paren hrest.symm
  have hread := Json.ofGlyphs?_of_spelled h
  rw [hs] at hread
  cases hread

theorem isFrame_pretty (image : Image) : isFrame image.toJson.pretty.toUTF8 = false := by
  have hspelled := Json.spelled_pretty image.toJson
  rw [← Json.glyphsOfBytes_toUTF8] at hspelled
  exact isFrame_of_spelled hspelled

end Image

def Zstd.only (level : Nat) (content frame : ByteArray) : Zstd where
  encode? level' content' :=
    if level' = level ∧ content'.data = content.data then some frame else none
  decode? frames := if frames.data = frame.data then some content else none

theorem Zstd.encode?_only (level : Nat) (content frame : ByteArray) :
    (only level content frame).encode? level content = some frame := if_pos ⟨rfl, rfl⟩

theorem Zstd.lawful_only {level : Nat} {content frame : ByteArray} (h : Image.isFrame frame) :
    (only level content frame).Lawful where
  isFrame_of_encode hencode := by
    obtain ⟨-, hframe⟩ := Option.ite_none_right_eq_some.mp hencode
    cases hframe
    exact h
  decode?_of_encode hencode := by
    obtain ⟨⟨-, hcontent⟩, hframe⟩ := Option.ite_none_right_eq_some.mp hencode
    cases hframe
    rw [ByteArray.ext hcontent]
    exact if_pos rfl

namespace Image

variable {z : Zstd} {image : Image} {path : Path}

theorem isFrame_of_encode? (hz : z.Lawful) {format : ImageFormat} {bytes : ByteArray}
    (h : image.encode? z format = some bytes) : isFrame bytes = format.isCompressed := by
  cases format with
  | plain =>
    cases h
    exact isFrame_pretty image
  | compressed level => exact hz.isFrame_of_encode h

theorem decode_of_unpack? {bytes : ByteArray} {j : String} (hj : Json.ofText? j = some image.toJson)
    (h : unpack? z bytes = some j.toUTF8) : decode z path bytes = .ok image := by
  have hdocument : (Json.ofBytes? j.toUTF8).bind ofJson? = some image := by
    rw [Json.ofBytes?_toUTF8, hj, Option.bind_some, ofJson?_toJson]
  simp only [decode, h, hdocument]

theorem decode_frame {bytes : ByteArray} (hframe : isFrame bytes)
    (hcontent : z.decode? bytes = some image.toJson.compact.toUTF8) :
    decode z path bytes = .ok image := by
  refine decode_of_unpack? (Json.ofText?_compact image.toJson) ?_
  rw [unpack?, if_pos hframe, hcontent]

theorem decode_of_encode? (hz : z.Lawful) {format : ImageFormat} {bytes : ByteArray}
    (h : image.encode? z format = some bytes) : decode z path bytes = .ok image := by
  cases format with
  | plain =>
    cases h
    refine decode_of_unpack? (Json.ofText?_pretty image.toJson) ?_
    rw [unpack?, isFrame_pretty]
    rfl
  | compressed level => exact decode_frame (hz.isFrame_of_encode h) (hz.decode?_of_encode h)

theorem load_of_write {t t' : FileTree} {bytes : ByteArray} (h : t.write path bytes = .ok t')
    (hbytes : decode z path bytes = .ok image) : load z t' path = .ok image := by
  rw [load, FileTree.read_eq_ok_iff.mpr (FileTree.entryAt?_write_self h)]
  exact hbytes

theorem save_eq_ok_iff {format : ImageFormat} {t t' : FileTree} :
    image.save z format t path = .ok t' ↔
      ∃ bytes, image.encode? z format = some bytes ∧ t.write path bytes = .ok t' := by
  rw [save]
  cases image.encode? z format with
  | none => simp
  | some bytes =>
    cases hwrite : t.write path bytes with
    | error e => simp [hwrite]
    | ok t'' => simp [hwrite]

/-- An image comes back from its file, be it plain or a frame made of its document by anyone. -/
theorem file_round_trip (hz : z.Lawful) (image : Image) (path : Path) :
    (∀ format bytes, image.encode? z format = some bytes → isFrame bytes = format.isCompressed) ∧
    (∀ format bytes t t', image.encode? z format = some bytes → t.write path bytes = .ok t' →
      image.save z format t path = .ok t') ∧
    (∀ format t t', image.save z format t path = .ok t' → load z t' path = .ok image) ∧
    ∀ (bytes : ByteArray) (t t' : FileTree), isFrame bytes →
      z.decode? bytes = some image.toJson.compact.toUTF8 → t.write path bytes = .ok t' →
      load z t' path = .ok image := by
  refine ⟨fun format bytes ↦ isFrame_of_encode? hz, fun format bytes t t' hencode hwrite ↦ ?_,
    fun format t t' hsave ↦ ?_, fun bytes t t' hframe hcontent hwrite ↦ ?_⟩
  · exact save_eq_ok_iff.mpr ⟨bytes, hencode, hwrite⟩
  · obtain ⟨bytes, hencode, hwrite⟩ := save_eq_ok_iff.mp hsave
    exact load_of_write hwrite (decode_of_encode? hz hencode)
  · exact load_of_write hwrite (decode_frame hframe hcontent)

def quoting : Image where
  units := [{
    name := "say \"hi\"\\\x00\n", body := [.pushString "😀\x1f", .pushInt Int64.minValue, .exit]
    parent := some "", children := ["\t"] }]

/-- What the document of `quoting` is compressed to at level 3. -/
def quotingFrame : ByteArray := ⟨#[
  0x28, 0xb5, 0x2f, 0xfd, 0x00, 0x58, 0xb5, 0x05, 0x00, 0xf2, 0x8b, 0x28, 0x29, 0xa0, 0x27, 0xe9,
  0xff, 0xff, 0xff, 0x83, 0xd0, 0xbf, 0x09, 0xd2, 0x97, 0xc8, 0x5b, 0xde, 0xf2, 0xb7, 0xcc, 0x6e,
  0x93, 0xd6, 0xf6, 0xbe, 0x9f, 0xed, 0x14, 0x58, 0x10, 0x3a, 0x2b, 0x2d, 0x11, 0x6b, 0x9f, 0x08,
  0x02, 0x18, 0xa4, 0xab, 0x0a, 0x1c, 0x0f, 0x64, 0xd6, 0x0e, 0xf6, 0x4c, 0x1c, 0x17, 0xcf, 0xf4,
  0xa4, 0x37, 0x3a, 0xb3, 0x67, 0xf6, 0x14, 0x4e, 0x6b, 0xd6, 0xf3, 0xdf, 0x37, 0xb3, 0xa7, 0x14,
  0x9e, 0x89, 0xd9, 0x3b, 0x6a, 0x39, 0xe7, 0xa9, 0xfb, 0xe6, 0xe8, 0x56, 0x02, 0x6c, 0x66, 0x8d,
  0xc8, 0x78, 0xea, 0x99, 0xde, 0xcd, 0x51, 0xf0, 0x7c, 0x16, 0x5d, 0x12, 0x8a, 0x22, 0x90, 0x58,
  0x06, 0x12, 0x45, 0x94, 0x24, 0x41, 0x10, 0x02, 0x80, 0x7d, 0xb3, 0x41, 0x3e, 0x5f, 0x04, 0xa8,
  0x46, 0xc4, 0xd0, 0xe0, 0xf0, 0xf0, 0x3d, 0x83, 0xdb, 0x6b, 0x84, 0x06, 0xc6, 0x03, 0xc8, 0xae,
  0xf5, 0x8a, 0xaf, 0x21, 0xb7, 0xe7, 0x19, 0xa9, 0xaa, 0x46, 0x84, 0xd0, 0x51, 0x6b, 0x8e, 0x10,
  0x0b, 0x0a, 0x7e, 0xcf, 0x1a, 0x8a, 0xff, 0x60, 0xf6, 0x4c, 0xe1, 0xd6, 0x1f, 0x01, 0x05, 0x00,
  0x33, 0xe4, 0xc4, 0xf4, 0x8a, 0xd2, 0x34, 0xfd, 0xf6, 0xe7, 0xe0, 0x92, 0x97, 0xda, 0x03]⟩

def quotingZstd : Zstd := .only 3 quoting.toJson.compact.toUTF8 quotingFrame

theorem lawful_quotingZstd : quotingZstd.Lawful := Zstd.lawful_only rfl

theorem file_round_trip_quoting :
    ∃ plain framed copied : FileTree,
      quoting.save quotingZstd .plain {} ⟨"game.img"⟩ = .ok plain ∧
      load quotingZstd plain ⟨"game.img"⟩ = .ok quoting ∧
      quoting.save quotingZstd (.compressed 3) {} ⟨"game.img"⟩ = .ok framed ∧
      load quotingZstd framed ⟨"game.img"⟩ = .ok quoting ∧
      FileTree.write {} ⟨"game.img"⟩ quotingFrame = .ok copied ∧
      load quotingZstd copied ⟨"game.img"⟩ = .ok quoting := by
  have hwrite (bytes : ByteArray) : ∃ t', FileTree.write {} ⟨"game.img"⟩ bytes = .ok t' :=
    ⟨_, FileTree.write_eq_ok_iff.mpr ⟨["game.img"], by decide, by simp [FileTree.entry?], rfl⟩⟩
  have hframe : quoting.encode? quotingZstd (.compressed 3) = some quotingFrame :=
    Zstd.encode?_only 3 _ quotingFrame
  obtain ⟨plain, hplain⟩ := hwrite quoting.toJson.pretty.toUTF8
  obtain ⟨framed, hframed⟩ := hwrite quotingFrame
  obtain ⟨hstart, hsave, hload, hcopy⟩ := file_round_trip lawful_quotingZstd quoting ⟨"game.img"⟩
  have hplain' := hsave .plain _ _ _ rfl hplain
  have hframed' := hsave _ _ _ _ hframe hframed
  exact ⟨plain, framed, framed, hplain', hload _ _ _ hplain', hframed', hload _ _ _ hframed',
    hframed, hcopy _ _ _ (hstart _ _ hframe) (lawful_quotingZstd.decode?_of_encode hframe) hframed⟩

end Image

end HookPatch
