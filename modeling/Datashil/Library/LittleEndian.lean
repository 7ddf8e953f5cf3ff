import Mathlib.Algebra.Order.Ring.Nat
import Mathlib.Data.List.Nodup
import Mathlib.Tactic.Common

/-! Little-endian byte strings of a fixed width. -/

namespace Datashil.Library.LittleEndian

/-- The lowest `width` bytes of a number, lowest first. -/
def encode : Nat → Nat → List UInt8
  | 0, _ => []
  | width + 1, value => UInt8.ofNat value :: encode width (value / 256)

def decode : List UInt8 → Nat
  | [] => 0
  | byte :: bytes => byte.toNat + 256 * decode bytes

@[simp] theorem length_encode (width value : Nat) : (encode width value).length = width := by
  induction width generalizing value with
  | zero => rfl
  | succ width ih => simp [encode, ih]

theorem decode_encode (width value : Nat) : decode (encode width value) = value % 256 ^ width := by
  induction width generalizing value with
  | zero => simp [encode, decode, Nat.mod_one]
  | succ width ih =>
    have low : (UInt8.ofNat value).toNat = value % 256 := UInt8.toNat_ofNat'
    rw [encode, decode, ih, low, Nat.pow_succ, Nat.mul_comm (256 ^ width) 256, Nat.mod_mul]

theorem decode_encode_of_lt {width value : Nat} (fits : value < 256 ^ width) :
    decode (encode width value) = value := by
  rw [decode_encode, Nat.mod_eq_of_lt fits]

theorem decode_lt (bytes : List UInt8) : decode bytes < 256 ^ bytes.length := by
  induction bytes with
  | nil => simp [decode]
  | cons byte bytes ih =>
    have small := UInt8.toNat_lt byte
    simp only [decode, List.length_cons, Nat.pow_succ]
    omega

theorem decode_inj {first second : List UInt8} (size : first.length = second.length)
    (same : decode first = decode second) : first = second := by
  induction first generalizing second with
  | nil => exact (List.eq_nil_of_length_eq_zero size.symm).symm
  | cons byte first ih =>
    cases second with
    | nil => cases size
    | cons other second =>
      simp only [decode] at same
      have small := UInt8.toNat_lt byte
      have small' := UInt8.toNat_lt other
      have low : byte = other := UInt8.toNat_inj.mp (by omega)
      rw [low, ih (Nat.succ.inj size) (by omega)]

end Datashil.Library.LittleEndian
