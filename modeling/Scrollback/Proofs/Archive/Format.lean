import Scrollback.Proofs.Archive.Encoding

/-!
This module contains the proof that the formats of the entries are exact: which bytes can be read as an
entry, and which bytes an entry that was read is written back as.
-/

namespace Scrollback

namespace LittleEndian

theorem decode_lt (bytes : List UInt8) : decode bytes < 256 ^ bytes.length := by
  induction bytes with
  | nil => exact Nat.one_pos
  | cons byte bytes ih =>
    have := byte.toNat_lt
    rw [decode, List.length_cons, Nat.pow_succ]
    omega

theorem encode_decode_uInt64 {bytes : List UInt8} (h : bytes.length = 8) :
    encode 8 (UInt64.ofNat (decode bytes)).toNat = bytes := by
  have hsize : 256 ^ 8 = UInt64.size := by decide
  have hlt := decode_lt bytes
  rw [h, hsize] at hlt
  rw [UInt64.toNat_ofNat_of_lt' hlt, ← h, encode_decode]

theorem toNat_decode_uInt16 (low high : UInt8) :
    (UInt16.ofNat (decode [low, high])).toNat = low.toNat + 256 * high.toNat := by
  have := low.toNat_lt
  have := high.toNat_lt
  have hdecode : decode [low, high] = low.toNat + 256 * high.toNat := rfl
  have hsize : UInt16.size = 65536 := rfl
  rw [hdecode]
  apply UInt16.toNat_ofNat_of_lt'
  omega

theorem encode_decode_uInt16 (low high : UInt8) :
    encode 2 (UInt16.ofNat (decode [low, high])).toNat = [low, high] := by
  rw [toNat_decode_uInt16]
  exact encode_decode [low, high]

end LittleEndian

theorem exists_testBit_iff {n low : Nat} :
    (∃ bit, low ≤ bit ∧ n.testBit bit = true) ↔ 2 ^ low ≤ n := by
  constructor
  · rintro ⟨bit, hle, hbit⟩
    exact Nat.le_trans (Nat.pow_le_pow_right Nat.two_pos hle) (Nat.ge_two_pow_of_testBit hbit)
  · exact fun h => Nat.exists_ge_and_testBit_of_ge_two_pow h

namespace RowEntry

theorem and_eq_zero_iff (flags : UInt8) : flags &&& 0xfc = 0 ↔ flags.toNat < 4 := by
  have h : ∀ bits : BitVec 8, bits &&& 0xfc#8 = 0#8 ↔ bits.toNat < 4 := by decide
  rw [← UInt8.toBitVec_inj]
  exact h flags.toBitVec

theorem flags_eq {flags : UInt8} (h : flags.toNat < 4) :
    ((if decide (flags &&& 1 ≠ 0) = true then 1 else 0)
      ||| (if decide (flags &&& 2 ≠ 0) = true then 2 else 0)) = flags := by
  have hflags : ∀ n < 4, ((if decide (UInt8.ofNat n &&& 1 ≠ 0) = true then 1 else 0)
      ||| (if decide (UInt8.ofNat n &&& 2 ≠ 0) = true then 2 else 0)) = UInt8.ofNat n := by
    decide
  rw [← UInt8.ofNat_toNat (x := flags)]
  exact hflags flags.toNat h

theorem drop_toList (bytes : Vector UInt8 17) : bytes.toList.drop 16 = [bytes[16]] := by
  apply List.ext_getElem
  · simp
  · intro i hi hi'
    obtain rfl : i = 0 := by simpa using hi'
    simp

theorem decode?_eq_none_iff (bytes : Vector UInt8 17) :
    decode? bytes.toList = none ↔ ∃ bit, 2 ≤ bit ∧ bytes[16].toNat.testBit bit = true := by
  rw [exists_testBit_iff, decode?, drop_toList]
  dsimp only
  have hflags := and_eq_zero_iff bytes[16]
  split
  · next h => simpa using hflags.mp h
  · next h => simpa using fun hlt => h (hflags.mpr hlt)

theorem encode_of_decode? {bytes : Vector UInt8 17} {entry : RowEntry}
    (h : decode? bytes.toList = some entry) : entry.encode = bytes.toList := by
  rw [decode?, drop_toList] at h
  dsimp only at h
  split at h
  · next hflags =>
    rw [Option.some.injEq] at h
    have hsplit : bytes.toList
        = bytes.toList.take 8 ++ (bytes.toList.drop 8).take 8 ++ bytes.toList.drop 16 := by
      rw [← List.drop_drop (i := 8) (j := 8), List.append_assoc, List.take_append_drop,
        List.take_append_drop]
    rw [hsplit, drop_toList, ← h, encode]
    dsimp only
    rw [LittleEndian.encode_decode_uInt64 (by simp), LittleEndian.encode_decode_uInt64 (by simp),
      flags_eq ((and_eq_zero_iff _).mp hflags)]
  · contradiction

end RowEntry

namespace NamedColor

theorem mem_all (name : NamedColor) : name ∈ all := by
  cases name <;> decide

theorem ofNumber?_eq_none_iff {n : UInt16} :
    ofNumber? n = none ↔ ∀ name : NamedColor, name.number ≠ n := by
  simp [ofNumber?, mem_all]

end NamedColor

namespace Color

def IsPadding (kind : UInt8) (i : Nat) : Prop :=
  kind = 0 ∧ i = 3 ∨ kind = 1 ∧ (i = 2 ∨ i = 3)

instance (kind : UInt8) (i : Nat) : Decidable (IsPadding kind i) :=
  inferInstanceAs (Decidable (_ ∨ _))

def IsUnknown (kind low high : UInt8) : Prop :=
  2 < kind ∨ kind = 0 ∧ ∀ name : NamedColor, name.number.toNat ≠ low.toNat + 256 * high.toNat

theorem decode?_eq_none_iff (kind a b c : UInt8) :
    decode? [kind, a, b, c] = none ↔ IsUnknown kind a b := by
  have hnumber : NamedColor.ofNumber? (.ofNat (LittleEndian.decode [a, b])) = none
      ↔ ∀ name : NamedColor, name.number.toNat ≠ a.toNat + 256 * b.toNat := by
    simp only [NamedColor.ofNumber?_eq_none_iff, ← LittleEndian.toNat_decode_uInt16, ne_eq,
      UInt16.toNat_inj]
  unfold decode? IsUnknown
  dsimp only
  split
  · next h => simp [h, hnumber]
  · next hnamed =>
    split
    · next h => simp [h]
    · next hindexed =>
      split
      · next h => simp [h]
      · next hrgb =>
        have : kind.toNat ≠ 0 := fun h => hnamed (UInt8.toNat_inj.mp h)
        have : kind.toNat ≠ 1 := fun h => hindexed (UInt8.toNat_inj.mp h)
        have : kind.toNat ≠ 2 := fun h => hrgb (UInt8.toNat_inj.mp h)
        have hlt : 2 < kind := UInt8.lt_iff_toNat_lt.mpr (by change 2 < kind.toNat; omega)
        simp [hlt]

theorem encode_of_decode? {kind a b c : UInt8} {color : Color}
    (h : decode? [kind, a, b, c] = some color) :
    color.encode
      =
    [kind, a, if IsPadding kind 2 then 0 else b, if IsPadding kind 3 then 0 else c] := by
  unfold decode? at h
  dsimp only at h
  split at h
  · next hkind =>
    obtain ⟨name, hname, rfl⟩ := Option.map_eq_some_iff.mp h
    rw [encode, NamedColor.number_of_ofNumber? hname, LittleEndian.encode_decode_uInt16, hkind]
    rfl
  · split at h
    · next hkind =>
      rw [← Option.some.inj h, hkind]
      rfl
    · split at h
      · next hkind =>
        rw [← Option.some.inj h, hkind]
        rfl
      · contradiction

end Color

namespace StyleChange

/--
Whether one of the 19 bytes does not matter. It is one of a color then, the first of which starts at
byte 8 and the second one at byte 12.
-/
def IsPadding (bytes : Vector UInt8 19) (i : Nat) : Prop :=
  8 ≤ i ∧ Color.IsPadding bytes[8] (i - 8) ∨ 12 ≤ i ∧ Color.IsPadding bytes[12] (i - 12)

instance (bytes : Vector UInt8 19) (i : Nat) : Decidable (IsPadding bytes i) :=
  inferInstanceAs (Decidable (_ ∨ _))

theorem take_drop_toList (bytes : Vector UInt8 19) (i : Nat) (h : i + 4 ≤ 19) :
    (bytes.toList.drop i).take 4 = [bytes[i], bytes[i + 1], bytes[i + 2], bytes[i + 3]] := by
  have hlength : bytes.toList.length = 19 := bytes.length_toList
  rw [List.drop_eq_getElem_cons (by omega), List.drop_eq_getElem_cons (by omega),
    List.drop_eq_getElem_cons (by omega), List.drop_eq_getElem_cons (by omega)]
  rfl

theorem drop_toList (bytes : Vector UInt8 19) :
    bytes.toList.drop 16 = [bytes[16], bytes[17], bytes[18]] := by
  have hlength : bytes.toList.length = 19 := bytes.length_toList
  rw [List.drop_eq_getElem_cons (by omega), List.drop_eq_getElem_cons (by omega),
    List.drop_eq_getElem_cons (by omega), List.drop_eq_nil_of_le (by omega)]
  rfl

theorem flagsDefined_iff {style : Style} : style.FlagsDefined ↔ style.flags.toNat < 2 ^ 12 := by
  rw [Style.FlagsDefined, ← UInt16.toNat_inj, UInt16.toNat_and]
  change style.flags.toNat &&& (2 ^ 12 - 1) = _ ↔ _
  rw [Nat.and_two_pow_sub_one_eq_mod]
  exact Nat.mod_eq_iff_lt (by decide)

theorem decode?_toList (bytes : Vector UInt8 19) :
    decode? bytes.toList
      =
    (Color.decode? [bytes[8], bytes[9], bytes[10], bytes[11]]).bind fun foreground =>
      (Color.decode? [bytes[12], bytes[13], bytes[14], bytes[15]]).bind fun background =>
        let style : Style :=
          { foreground, background,
            flags := .ofNat (LittleEndian.decode [bytes[16], bytes[17]]), columns := bytes[18] }
        if style.FlagsDefined then
          some { textEnd := .ofNat (LittleEndian.decode (bytes.toList.take 8)), style }
        else
          none := by
  rw [decode?, drop_toList, take_drop_toList bytes 8 (by decide), take_drop_toList bytes 12 (by decide)]
  simp only [Option.bind_eq_bind, guard]
  congr 1
  funext foreground
  congr 1
  funext background
  split <;> rfl

theorem decode?_eq_none_iff (bytes : Vector UInt8 19) :
    decode? bytes.toList = none
      ↔
    Color.IsUnknown bytes[8] bytes[9] bytes[10] ∨ Color.IsUnknown bytes[12] bytes[13] bytes[14]
      ∨ ∃ bit, 12 ≤ bit ∧ (bytes[16].toNat + 256 * bytes[17].toNat).testBit bit = true := by
  rw [decode?_toList, exists_testBit_iff, ← LittleEndian.toNat_decode_uInt16,
    ← Color.decode?_eq_none_iff _ _ _ bytes[11], ← Color.decode?_eq_none_iff _ _ _ bytes[15]]
  cases Color.decode? [bytes[8], bytes[9], bytes[10], bytes[11]] with
  | none => simp
  | some foreground =>
    cases Color.decode? [bytes[12], bytes[13], bytes[14], bytes[15]] with
    | none => simp
    | some background => simp [flagsDefined_iff]

theorem encode_of_decode? {bytes : Vector UInt8 19} {change : StyleChange}
    (h : decode? bytes.toList = some change) (i : Nat) (hi : i < 19) :
    change.encode[i]? = some (if IsPadding bytes i then 0 else bytes[i]) := by
  rw [decode?_toList] at h
  obtain ⟨foreground, hforeground, h⟩ := Option.bind_eq_some_iff.mp h
  obtain ⟨background, hbackground, h⟩ := Option.bind_eq_some_iff.mp h
  dsimp only at h
  split at h
  · rw [← Option.some.inj h, encode_eq]
    dsimp only
    rw [LittleEndian.encode_decode_uInt64 (by simp), LittleEndian.encode_decode_uInt16,
      Color.encode_of_decode? hforeground, Color.encode_of_decode? hbackground]
    iterate 19
      rcases i with _ | i
      · simp [IsPadding, Color.IsPadding]
    omega
  · contradiction

end StyleChange

/--
An entry is read back as it was written, and bytes that can be read as an entry are the ones that it is
written as, apart from the bytes of a color that do not matter. The bytes that cannot be read are those
with a flag, a color or an effect that has no meaning.
-/
theorem entry_formats_exact :
    (∀ entry : RowEntry, RowEntry.decode? entry.encode = some entry)
      ∧ (∀ bytes : Vector UInt8 17,
        (RowEntry.decode? bytes.toList = none
            ↔ ∃ bit, 2 ≤ bit ∧ bytes[16].toNat.testBit bit = true)
          ∧ ∀ entry, RowEntry.decode? bytes.toList = some entry → entry.encode = bytes.toList)
      ∧ (∀ change : StyleChange, change.style.FlagsDefined →
        StyleChange.decode? change.encode = some change)
      ∧ ∀ bytes : Vector UInt8 19,
        (StyleChange.decode? bytes.toList = none
            ↔ Color.IsUnknown bytes[8] bytes[9] bytes[10]
              ∨ Color.IsUnknown bytes[12] bytes[13] bytes[14]
              ∨ ∃ bit, 12 ≤ bit ∧ (bytes[16].toNat + 256 * bytes[17].toNat).testBit bit = true)
          ∧ ∀ change, StyleChange.decode? bytes.toList = some change → ∀ i, (hi : i < 19) →
            change.encode[i]? = some (if StyleChange.IsPadding bytes i then 0 else bytes[i]) := by
  refine ⟨RowEntry.decode?_encode, fun bytes => ⟨?_, ?_⟩, ?_, fun bytes => ⟨?_, ?_⟩⟩
  · exact RowEntry.decode?_eq_none_iff bytes
  · exact fun entry hentry => RowEntry.encode_of_decode? hentry
  · exact fun change hflags => StyleChange.decode?_encode hflags
  · exact StyleChange.decode?_eq_none_iff bytes
  · exact fun change hchange => StyleChange.encode_of_decode? hchange

/--
An indexed foreground and a named background, all of whose bytes are set.
-/
theorem entry_formats_exact_padding :
    let bytes : Vector UInt8 19 :=
      #v[3, 2, 1, 0, 0, 0, 0, 0, 1, 200, 7, 9, 0, 1, 1, 5, 0xff, 0x0f, 2]
    ∃ change : StyleChange, StyleChange.decode? bytes.toList = some change
      ∧ change.style.FlagsDefined
      ∧ StyleChange.decode? change.encode = some change
      ∧ change.encode[9]? = some 200 ∧ change.encode[10]? = some 0 ∧ change.encode[11]? = some 0
      ∧ change.encode[14]? = some 1 ∧ change.encode[15]? = some 0 := by
  intro bytes
  obtain ⟨-, -, hround, hexact⟩ := entry_formats_exact
  let change : StyleChange :=
    { textEnd := 0x010203
      style := {
        foreground := .indexed 200
        background := .named .background
        flags := 0x0fff
        columns := 2 } }
  have hdecode : StyleChange.decode? bytes.toList = some change := by decide
  have hencode := (hexact bytes).2 change hdecode
  exact ⟨change, hdecode, by decide, hround change (by decide), hencode 9 (by decide),
    hencode 10 (by decide), hencode 11 (by decide), hencode 14 (by decide), hencode 15 (by decide)⟩

end Scrollback
