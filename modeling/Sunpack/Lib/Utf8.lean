import Mathlib

/-!
# UTF-8

Characters as bytes and back. A list of bytes is text if it is the encoding of some characters, and
then it has exactly these.
-/

namespace Sunpack.Lib

def toUtf8 (text : List Char) : List UInt8 := text.flatMap String.utf8EncodeChar

def fromUtf8 (bytes : List UInt8) : Option (List Char) :=
  (ByteArray.mk bytes.toArray).utf8Decode?.map Array.toList

theorem toByteArray_toUtf8 (text : List Char) :
    ByteArray.mk (toUtf8 text).toArray = text.utf8Encode := by
  apply ByteArray.ext
  rw [List.utf8Encode, List.data_toByteArray, toUtf8]

@[simp] theorem fromUtf8_toUtf8 (text : List Char) : fromUtf8 (toUtf8 text) = some text := by
  rw [fromUtf8, toByteArray_toUtf8, List.utf8Decode?_utf8Encode]
  rfl

/-- What decodes is the encoding of the result. -/
theorem toUtf8_of_fromUtf8 {bytes : List UInt8} {text : List Char} (h : fromUtf8 bytes = some text) :
    toUtf8 text = bytes := by
  rw [fromUtf8, Option.map_eq_some_iff] at h
  obtain ⟨chars, hchars, rfl⟩ := h
  have hvalid : (ByteArray.mk bytes.toArray).utf8Decode?.isSome := by rw [hchars]; rfl
  obtain ⟨encoded, hencoded⟩ := ByteArray.isSome_utf8Decode?_iff.1 hvalid
  rw [hencoded, List.utf8Decode?_utf8Encode, Option.some.injEq] at hchars
  rw [← hchars]
  have hdata := congrArg (fun b => b.data.toList) hencoded
  simpa [List.utf8Encode, toUtf8] using hdata.symm

@[simp] theorem length_toUtf8 (text : List Char) :
    (toUtf8 text).length = (text.map Char.utf8Size).sum := by
  induction text with
  | nil => rfl
  | cons c text ih =>
    rw [toUtf8, List.flatMap_cons, List.length_append, String.length_utf8EncodeChar]
    rw [toUtf8] at ih
    simp [ih]

end Sunpack.Lib
