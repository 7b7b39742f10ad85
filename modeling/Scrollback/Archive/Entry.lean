import Scrollback.Bytes.LittleEndian

/-!
This module contains the entries of the row log, one for each frozen row. An entry is 17 bytes long:
two offsets of 8 bytes and a byte of flags.
-/

namespace Scrollback

structure RowEntry where
  textStart : UInt64
  /--
  The offset of the style change that ends the run that the row begins in, which is the head of the
  attribute log while that run is open.
  -/
  styleStart : UInt64
  softWrapped : Bool
  ascii : Bool
  deriving DecidableEq, Repr

namespace RowEntry

def size : Nat := 17

def offsetOf (index : Nat) : Nat :=
  index * size

def encode (entry : RowEntry) : List UInt8 :=
  LittleEndian.encode 8 entry.textStart.toNat ++ LittleEndian.encode 8 entry.styleStart.toNat ++
    [(if entry.softWrapped then 1 else 0) ||| (if entry.ascii then 2 else 0)]

def decode? (bytes : List UInt8) : Option RowEntry :=
  match bytes.drop 16 with
  | [flags] =>
    if flags &&& 0xfc = 0 then
      some {
        textStart := .ofNat (LittleEndian.decode (bytes.take 8))
        styleStart := .ofNat (LittleEndian.decode ((bytes.drop 8).take 8))
        softWrapped := flags &&& 1 ≠ 0
        ascii := flags &&& 2 ≠ 0 }
    else
      none
  | _ => none

end RowEntry

end Scrollback
