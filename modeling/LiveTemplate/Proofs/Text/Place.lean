import Mathlib
import LiveTemplate.Text.Offset

/-!
# Where a piece of a text stands

A piece stands at a byte offset when the offset is a character boundary and the bytes from there on
are those of the piece. In characters: the text is the piece with characters before it that take as
many bytes as the offset says (`Text.stands_iff`). So a piece of a piece stands at the sum of the two
offsets (`Text.Stands.trans`).
-/
namespace LiveTemplate.Text

theorem width_ofList (cs : List Char) : (String.ofList cs).utf8ByteSize = width cs := by
  induction cs with
  | nil => rfl
  | cons c cs ih =>
    rw [← List.singleton_append, String.ofList_append, String.utf8ByteSize_append, ih, width_append,
      ← String.singleton_eq_ofList, String.utf8ByteSize_singleton]
    rfl

theorem width_toList (s : String) : width s.toList = s.utf8ByteSize := by
  rw [← width_ofList, String.ofList_toList]

theorem extract_behind (before text : String) (n : Nat) :
    (before ++ text).toByteArray.extract before.utf8ByteSize (before.utf8ByteSize + n) =
      text.toByteArray.extract 0 n := by
  rw [String.toByteArray_append]
  exact ByteArray.extract_append_size_add' String.size_toByteArray.symm (i := 0)

/-- The text has the bytes of the piece from a character boundary on. -/
structure Stands (text : String) (offset : Nat) (piece : String) : Prop where
  boundary : String.Pos.Raw.IsValid text ⟨offset⟩
  inside : offset + piece.utf8ByteSize ≤ text.utf8ByteSize
  bytes : text.toByteArray.extract offset (offset + piece.utf8ByteSize) = piece.toByteArray

theorem stands_append (before piece after : String) :
    Stands (before ++ piece ++ after) before.utf8ByteSize piece where
  boundary := String.Pos.Raw.isValid_iff_exists_append.2
    ⟨before, piece ++ after, String.append_assoc .., rfl⟩
  inside := by simp [String.utf8ByteSize_append]
  bytes := by
    rw [String.append_assoc, extract_behind, String.toByteArray_append, ← String.size_toByteArray,
      ByteArray.extract_append_eq_left rfl]

theorem Stands.exists_append {text piece : String} {offset : Nat} (h : Stands text offset piece) :
    ∃ before after, text = before ++ piece ++ after ∧ before.utf8ByteSize = offset := by
  obtain ⟨before, behind, rfl, hoffset⟩ := String.Pos.Raw.isValid_iff_exists_append.1 h.boundary
  obtain rfl : offset = before.utf8ByteSize := congrArg String.Pos.Raw.byteIdx hoffset
  have hbytes := h.bytes
  rw [extract_behind] at hbytes
  have hcut : String.Pos.Raw.IsValid behind ⟨piece.utf8ByteSize⟩ := by
    refine String.Pos.Raw.isValid_iff_isValidUTF8_extract_zero.2 ⟨?_, ?_⟩
    · have := h.inside
      rw [String.utf8ByteSize_append] at this
      exact Nat.le_of_add_le_add_left this
    · rw [hbytes]
      exact piece.isValidUTF8
  obtain ⟨front, after, rfl, hfront⟩ := String.Pos.Raw.isValid_iff_exists_append.1 hcut
  have hsize : piece.utf8ByteSize = front.utf8ByteSize := congrArg String.Pos.Raw.byteIdx hfront
  rw [String.toByteArray_append, hsize, ← String.size_toByteArray,
    ByteArray.extract_append_eq_left rfl, String.toByteArray_inj] at hbytes
  exact ⟨before, after, by rw [hbytes, String.append_assoc], rfl⟩

theorem stands_iff {text piece : String} {offset : Nat} :
    Stands text offset piece ↔
      ∃ before after, text.toList = before ++ piece.toList ++ after ∧ width before = offset := by
  constructor
  · intro h
    obtain ⟨before, after, rfl, rfl⟩ := h.exists_append
    exact ⟨before.toList, after.toList, by simp, width_toList before⟩
  · rintro ⟨before, after, htext, rfl⟩
    have := stands_append (String.ofList before) piece (String.ofList after)
    rwa [← String.ofList_toList (s := piece), ← String.ofList_append, ← String.ofList_append, ← htext,
      String.ofList_toList, width_ofList, String.ofList_toList] at this

theorem Stands.trans {text middle piece : String} {a b : Nat} (h : Stands text a middle)
    (h' : Stands middle b piece) : Stands text (a + b) piece := by
  obtain ⟨before, after, rfl, rfl⟩ := h.exists_append
  obtain ⟨before', after', rfl, rfl⟩ := h'.exists_append
  have := stands_append (before ++ before') piece (after' ++ after)
  simpa [String.append_assoc, String.utf8ByteSize_append] using this

theorem stands_self (text : String) : Stands text 0 text := by
  simpa using stands_append "" text ""

end LiveTemplate.Text
