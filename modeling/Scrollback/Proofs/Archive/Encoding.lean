import Mathlib.Algebra.Order.Ring.Nat
import Scrollback.Archive.Entry
import Scrollback.Archive.StyleChange

/-!
This module contains the proof that the entries of the row log and the attribute log are read back
as they were written.
-/

namespace Scrollback

namespace LittleEndian

theorem decode_encode {size n : Nat} (h : n < 256 ^ size) : decode (encode size n) = n := by
  induction size generalizing n with
  | zero =>
    have : n = 0 := by simpa using h
    simp [encode, decode, this]
  | succ size ih =>
    have hdiv : n / 256 < 256 ^ size := by
      rw [Nat.pow_succ] at h
      omega
    have hbyte : (UInt8.ofNat (n % 256)).toNat = n % 256 := by
      simp
    simp only [encode, decode, ih hdiv, hbyte]
    omega

theorem decode_encode_uInt64 (n : UInt64) : UInt64.ofNat (decode (encode 8 n.toNat)) = n := by
  rw [decode_encode n.toNat_lt]
  exact UInt64.ofNat_toNat

theorem decode_encode_uInt16 (n : UInt16) : UInt16.ofNat (decode (encode 2 n.toNat)) = n := by
  rw [decode_encode n.toNat_lt]
  exact UInt16.ofNat_toNat

end LittleEndian

namespace RowEntry

@[simp]
theorem length_encode (entry : RowEntry) : entry.encode.length = size := by
  simp [encode, LittleEndian.length_encode, size]

theorem drop_encode (entry : RowEntry) :
    entry.encode.drop 16
      =
    [(if entry.softWrapped then 1 else 0) ||| (if entry.ascii then 2 else 0)] := by
  unfold encode
  rw [List.drop_append_of_le_length (by simp [LittleEndian.length_encode])]
  rw [List.drop_of_length_le (by simp [LittleEndian.length_encode])]
  rfl

theorem take_encode (entry : RowEntry) :
    entry.encode.take 8 = LittleEndian.encode 8 entry.textStart.toNat := by
  unfold encode
  rw [List.append_assoc]
  exact List.take_left' (LittleEndian.length_encode ..)

theorem take_drop_encode (entry : RowEntry) :
    (entry.encode.drop 8).take 8 = LittleEndian.encode 8 entry.styleStart.toNat := by
  unfold encode
  rw [List.append_assoc]
  rw [List.drop_left' (LittleEndian.length_encode ..)]
  exact List.take_left' (LittleEndian.length_encode ..)

theorem decode?_encode (entry : RowEntry) : decode? entry.encode = some entry := by
  unfold decode?
  rw [drop_encode, take_encode, take_drop_encode]
  rw [LittleEndian.decode_encode_uInt64, LittleEndian.decode_encode_uInt64]
  obtain ⟨_, _, softWrapped, ascii⟩ := entry
  cases softWrapped <;> cases ascii <;> simp <;> decide

end RowEntry

namespace Color

@[simp]
theorem length_encode (color : Color) : color.encode.length = 4 := by
  cases color <;> simp [encode, LittleEndian.length_encode]

theorem decode?_encode (color : Color) : decode? color.encode = some color := by
  cases color with
  | named name => cases name <;> rfl
  | indexed index => rfl
  | rgb red green blue => rfl

end Color

namespace StyleChange

@[simp]
theorem length_encode (change : StyleChange) : change.encode.length = size := by
  simp [encode, LittleEndian.length_encode, size]

theorem encode_eq (change : StyleChange) :
    change.encode
      =
    LittleEndian.encode 8 change.textEnd.toNat ++ (change.style.foreground.encode ++
      (change.style.background.encode ++ (LittleEndian.encode 2 change.style.flags.toNat ++
        [change.style.columns]))) := by
  simp [encode]

theorem take_encode (change : StyleChange) :
    change.encode.take 8 = LittleEndian.encode 8 change.textEnd.toNat := by
  rw [encode_eq]
  exact List.take_left' (LittleEndian.length_encode ..)

theorem foreground_encode (change : StyleChange) :
    (change.encode.drop 8).take 4 = change.style.foreground.encode := by
  rw [encode_eq]
  rw [List.drop_left' (LittleEndian.length_encode ..)]
  exact List.take_left' (Color.length_encode _)

theorem background_encode (change : StyleChange) :
    (change.encode.drop 12).take 4 = change.style.background.encode := by
  rw [encode_eq, ← List.append_assoc]
  rw [List.drop_left' (by simp [LittleEndian.length_encode])]
  exact List.take_left' (Color.length_encode _)

theorem drop_encode (change : StyleChange) :
    change.encode.drop 16
      =
    LittleEndian.encode 2 change.style.flags.toNat ++ [change.style.columns] := by
  rw [encode_eq, ← List.append_assoc, ← List.append_assoc]
  exact List.drop_left' (by simp [LittleEndian.length_encode])

theorem decode?_encode {change : StyleChange} (h : change.style.FlagsDefined) :
    decode? change.encode = some change := by
  have hflags := LittleEndian.decode_encode_uInt16 change.style.flags
  obtain ⟨low, high, hlow⟩ :
      ∃ low high, LittleEndian.encode 2 change.style.flags.toNat = [low, high] :=
    ⟨_, _, rfl⟩
  unfold decode?
  rw [drop_encode, take_encode, foreground_encode, background_encode]
  rw [LittleEndian.decode_encode_uInt64]
  rw [hlow] at hflags ⊢
  simp only [List.cons_append, List.nil_append, hflags, Color.decode?_encode, Option.bind_eq_bind,
    Option.bind_some]
  simp [h, guard]

end StyleChange

end Scrollback
