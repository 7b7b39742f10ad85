/-!
This module contains the bytes of text in UTF-8 as a list.
-/

namespace Scrollback

namespace Text

def utf8 (text : List Char) : List UInt8 :=
  text.flatMap String.utf8EncodeChar

@[simp]
theorem utf8_nil : utf8 [] = [] := by
  rfl

@[simp]
theorem utf8_cons (char : Char) (text : List Char) :
    utf8 (char :: text) = String.utf8EncodeChar char ++ utf8 text := by
  rfl

@[simp]
theorem utf8_append (text text' : List Char) : utf8 (text ++ text') = utf8 text ++ utf8 text' := by
  simp [utf8]

theorem utf8_flatMap {α : Type} (l : List α) (f : α → List Char) :
    utf8 (l.flatMap f) = l.flatMap fun a => utf8 (f a) :=
  List.flatMap_assoc

theorem length_utf8_cons (char : Char) (text : List Char) :
    (utf8 (char :: text)).length = char.utf8Size + (utf8 text).length := by
  rw [utf8_cons, List.length_append, String.length_utf8EncodeChar]

theorem length_utf8_eq {text : List Char} (h : ∀ char ∈ text, char.utf8Size = 1) :
    (utf8 text).length = text.length := by
  induction text with
  | nil => rfl
  | cons char text ih =>
    rw [List.forall_mem_cons] at h
    rw [length_utf8_cons, h.1, ih h.2, List.length_cons, Nat.add_comm]

theorem toByteArray_utf8 (text : List Char) : (utf8 text).toByteArray = text.utf8Encode := by
  rfl

theorem toList_toUTF8 (text : String) : text.toUTF8.data.toList = utf8 text.toList := by
  rw [String.toUTF8, ← String.utf8Encode_toList, ← toByteArray_utf8, List.data_toByteArray]

theorem utf8ByteSize_eq (text : String) : text.utf8ByteSize = (utf8 text.toList).length := by
  rw [← toList_toUTF8]
  rfl

theorem fromUTF8?_eq {bytes : ByteArray} {text : List Char} (h : bytes.data.toList = utf8 text) :
    String.fromUTF8? bytes = some (String.ofList text) := by
  have hbytes : bytes = (String.ofList text).toByteArray := by
    apply ByteArray.ext
    apply Array.ext'
    rw [h, String.toByteArray_ofList, ← toByteArray_utf8, List.data_toByteArray]
  subst hbytes
  rw [String.fromUTF8?, dif_pos (String.isValidUTF8 _)]
  rfl

theorem utf8EncodeChar_ofNat :
    ∀ n < 128, String.utf8EncodeChar (Char.ofNat n) = [UInt8.ofNat n] := by
  decide

theorem forall_mem_utf8_lt {text : List Char} (h : ∀ char ∈ text, char.toNat < 128) :
    ∀ byte ∈ utf8 text, byte < 128 := by
  simp only [utf8, List.forall_mem_flatMap]
  intro char hchar byte hbyte
  have hlt := h char hchar
  rw [← Char.ofNat_toNat char, utf8EncodeChar_ofNat _ hlt, List.mem_singleton] at hbyte
  rw [hbyte, UInt8.lt_iff_toNat_lt, UInt8.toNat_ofNat_of_lt' (Nat.lt_trans hlt (by decide))]
  exact hlt

theorem exists_utf8_eq {bytes : List UInt8} (h : ∀ byte ∈ bytes, byte < 128) :
    ∃ text, utf8 text = bytes ∧ ∀ char ∈ text, char.utf8Size = 1 := by
  induction bytes with
  | nil => exact ⟨[], rfl, by simp⟩
  | cons byte bytes ih =>
    rw [List.forall_mem_cons] at h
    obtain ⟨text, htext, hsize⟩ := ih h.2
    have hencode := utf8EncodeChar_ofNat byte.toNat (UInt8.lt_iff_toNat_lt.mp h.1)
    rw [UInt8.ofNat_toNat] at hencode
    refine ⟨Char.ofNat byte.toNat :: text, ?_, ?_⟩
    · rw [utf8_cons, hencode, htext]
      rfl
    · rw [List.forall_mem_cons, ← String.length_utf8EncodeChar, hencode]
      exact ⟨rfl, hsize⟩

def IsPrintable (char : Char) : Prop :=
  ' ' ≤ char ∧ char ≤ '~'

theorem IsPrintable.utf8Size_eq {char : Char} (h : IsPrintable char) : char.utf8Size = 1 := by
  rw [Char.utf8Size_eq_one_iff]
  exact Nat.le_trans (UInt32.le_iff_toNat_le.mp h.2) (by decide)

end Text

end Scrollback
