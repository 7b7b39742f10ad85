/-!
This module contains numbers of fixed size in little-endian byte order.
-/

namespace Scrollback

namespace LittleEndian

def encode : (size : Nat) → Nat → List UInt8
  | 0, _ => []
  | size + 1, n => .ofNat (n % 256) :: encode size (n / 256)

def decode : List UInt8 → Nat
  | [] => 0
  | byte :: bytes => byte.toNat + 256 * decode bytes

theorem length_encode (size n : Nat) : (encode size n).length = size := by
  induction size generalizing n with
  | zero => rfl
  | succ size ih => simp [encode, ih]

theorem encode_decode (bytes : List UInt8) : encode bytes.length (decode bytes) = bytes := by
  induction bytes with
  | nil => rfl
  | cons byte bytes ih =>
    have := byte.toNat_lt
    have hmod : (byte.toNat + 256 * decode bytes) % 256 = byte.toNat := by omega
    have hdiv : (byte.toNat + 256 * decode bytes) / 256 = decode bytes := by omega
    simp [encode, decode, hmod, hdiv, ih]

end LittleEndian

end Scrollback
